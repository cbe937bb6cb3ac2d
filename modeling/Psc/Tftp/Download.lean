import Psc.Lib.StopAndWait
import Psc.Tftp.Sessions

/-!
# Downloads

The server sends a block, keeps it for the case that it has to be sent again, and reads the next one
when it is acknowledged. Without a buffer nothing is read, and nothing is sent.

`download_session`: a peer that takes the blocks in order from whatever reaches it has a front of
the file, however often the blocks are sent, and whatever gets lost or overtaken.
-/

namespace Psc.Tftp

open Net Transition StopAndWait

variable {H φ : Type*}

/-- The callback reads on in a file: `left` is what is still to be read from it. -/
structure ReadsOn (ctx : Context H φ) (left : H → φ → List Byte) : Prop where
  read : ∀ h fs data fs', ctx.readFile h 512 fs = (some data, fs') →
    data = (left h fs).take 512 ∧ left h fs' = (left h fs).drop 512

/-- The other side acknowledges what it has been sent, in a transfer of less than 65536 blocks. -/
def Acknowledges (s : Server H φ) : Act → Prop
  | .recv p sender _ => s.handle.isSome → s.modeWrite = false → ¬s.Refuses sender → p.sbuf 0 = 4 →
      ∃ S x, session s.log = some S ∧ (S.peer, dataPacket (p.sbuf 1) x) ∈ S.sent ∧
        S.read.length < 65536
  | .tmr _ => True

/-- What a download has done. The buffer is that of the last block, or there is none. -/
structure Downloading (left : H → φ → List Byte) (c : Option (Cursor H)) (buf : Option (List Byte))
    (fs : φ) (o : Option (Session H φ)) : Prop where
  next : ∀ k S, c = some k → o = some S → k.write = false → buf = none →
    k.blknum = number 16 (S.read.length + 1)
  last : ∀ k S d, c = some k → o = some S → k.write = false → buf = some d →
    k.blknum = number 16 S.read.length ∧ 1 ≤ S.read.length ∧
      d = dataPacket k.blknum (block 512 (left S.handle S.start) S.read.length)
  rest : ∀ k S, c = some k → o = some S → k.write = false →
    left S.handle fs = (left S.handle S.start).drop (512 * S.read.length)
  blocks : ∀ S, o = some S → S.write = false →
    S.read = firstBlocks (block 512 (left S.handle S.start)) S.read.length
  sent : ∀ S, o = some S → S.write = false → ∀ q k x, (q, dataPacket k x) ∈ S.sent →
    q = S.peer ∧ ∃ i, 1 ≤ i ∧ i ≤ S.read.length ∧ k = number 16 i ∧
      x = block 512 (left S.handle S.start) i

section Downloading

variable {left : H → φ → List Byte} {c : Option (Cursor H)} {buf : Option (List Byte)} {fs : φ}
  {o : Option (Session H φ)}

/-- A packet is sent, or there is no buffer for it. -/
theorem Downloading.packet (h : Downloading left c buf fs o) (b : Bool) (dest : Endpoint)
    (packet : List Byte)
    (hp : ∀ S, o = some S → S.write = false → ∀ k x, packet = dataPacket k x →
      dest = S.peer ∧ ∃ i, 1 ≤ i ∧ i ≤ S.read.length ∧ k = number 16 i ∧
        x = block 512 (left S.handle S.start) i) :
    Downloading left c buf fs (o.map (·.addSent (if b then [(dest, packet)] else []))) := by
  cases o with
  | none => exact h
  | some S =>
    refine ⟨?_, ?_, ?_, ?_, ?_⟩
    · rintro k _ hk ⟨⟩
      exact h.next k S hk rfl
    · rintro k _ d hk ⟨⟩
      exact h.last k S d hk rfl
    · rintro k _ hk ⟨⟩
      exact h.rest k S hk rfl
    · rintro _ ⟨⟩
      exact h.blocks S rfl
    · rintro _ ⟨⟩ hw q k x hq
      obtain hq | hq := List.mem_append.mp hq
      · exact h.sent S rfl hw q k x hq
      · split_ifs at hq
        · obtain ⟨rfl, heq⟩ := Prod.mk.inj (List.mem_singleton.mp hq)
          exact hp S rfl hw k x heq.symm
        · cases hq

theorem Downloading.closed (h : Downloading left c buf fs o) (buf' : Option (List Byte)) (fs' : φ) :
    Downloading left none buf' fs' o where
  next := by rintro k S ⟨⟩
  last := by rintro k S d ⟨⟩
  rest := by rintro k S ⟨⟩
  blocks := h.blocks
  sent := h.sent

theorem Downloading.of_upload (hc : ∀ k, c = some k → k.write = true)
    (ho : ∀ S, o = some S → S.write = true) : Downloading left c buf fs o where
  next k S hk _ hw := by simp [hc k hk] at hw
  last k S d hk _ hw := by simp [hc k hk] at hw
  rest k S hk _ hw := by simp [hc k hk] at hw
  blocks S hS hw := by simp [ho S hS] at hw
  sent S hS hw := by simp [ho S hS] at hw

theorem Downloading.begin (q : Endpoint) (h : H) :
    Downloading left (some ⟨q, false, h, 1⟩) none fs (some ⟨q, false, h, fs, [], [], []⟩) where
  next := by
    rintro _ _ ⟨⟩ ⟨⟩ - -
    rfl
  last := by rintro _ _ d ⟨⟩ ⟨⟩ - ⟨⟩
  rest := by
    rintro _ _ ⟨⟩ ⟨⟩ -
    rfl
  blocks := by
    rintro _ ⟨⟩ -
    rfl
  sent := by
    rintro _ ⟨⟩ - q k x hq
    cases hq

/-- The next block is read, into a buffer. -/
theorem Downloading.read {S : Session H φ} {k : Cursor H} {data : List Byte} {fs' : φ}
    (h : Downloading left (some k) none fs (some S)) (hk : k.write = false) (hw : S.write = false)
    (hdata : data = (left S.handle fs).take 512)
    (hleft : left S.handle fs' = (left S.handle fs).drop 512) :
    Downloading left (some k) (some (dataPacket k.blknum data)) fs' (some (S.addRead data)) := by
  have hrest := h.rest k S rfl rfl hk
  have hnext := h.next k S rfl rfl hk rfl
  have hlen : (S.addRead data).read.length = S.read.length + 1 := List.length_append ..
  have hblock : data = block 512 (left S.handle S.start) (S.read.length + 1) := by
    rw [hdata, hrest]
    rfl
  refine ⟨?_, ?_, ?_, ?_, ?_⟩
  · rintro _ _ - - - ⟨⟩
  · rintro _ _ d ⟨⟩ ⟨⟩ - ⟨⟩
    rw [hlen]
    refine ⟨hnext, Nat.le_add_left .., ?_⟩
    rw [hblock]
    rfl
  · rintro _ _ ⟨⟩ ⟨⟩ -
    rw [hlen, Nat.mul_succ, ← List.drop_drop]
    show left S.handle fs' = _
    rw [hleft, hrest]
    rfl
  · rintro _ ⟨⟩ -
    rw [hlen, firstBlocks_succ]
    show S.read ++ [data] = _
    rw [hblock]
    exact congrArg (· ++ _) (h.blocks S rfl hw)
  · rintro _ ⟨⟩ - q k x hq
    obtain ⟨hpeer, i, hi, hir, hki, hx⟩ := h.sent S rfl hw q k x hq
    exact ⟨hpeer, i, hi, hlen ▸ Nat.le_succ_of_le hir, hki, hx⟩

/-- The last block has been acknowledged, so that the next one is due. -/
theorem Downloading.advance {k k' : Cursor H} {d : List Byte}
    (h : Downloading left (some k) (some d) fs o) (hk : k.write = false)
    (hnum : k'.blknum = k.blknum + 1) : Downloading left (some k') none fs o where
  next := by
    rintro _ S ⟨⟩ hS - -
    rw [hnum, (h.last k S d rfl hS hk rfl).1, number_succ]
  last := by rintro _ S d _ _ _ ⟨⟩
  rest := by
    rintro _ S ⟨⟩ hS -
    exact h.rest k S rfl hS hk
  blocks := h.blocks
  sent := h.sent

end Downloading

section Step

variable {ctx : Context H φ} {mem : Site → Bool} {s s' : Server H φ} {p : Pbuf} {sender : Endpoint}
  {left : H → φ → List Byte}

def Server.Downloading (left : H → φ → List Byte) (s : Server H φ) : Prop :=
  Tftp.Downloading left s.cursor s.lastData s.fs (session s.log)

theorem Server.Downloading.sendPacket (hs : s.Downloading left) {site : Site} {dest : Endpoint}
    {packet : List Byte} (hp : ∀ k x, packet ≠ dataPacket k x) :
    (s.sendPacket mem site dest packet).Downloading left := by
  unfold Server.Downloading
  rw [session_sendPacket]
  exact Downloading.packet hs _ _ _ fun _ _ _ k x h => absurd h (hp k x)

theorem Server.Downloading.sendError (hs : s.Downloading left) (q : Endpoint) (code : TftpError)
    (str : String) : (s.sendError mem q code str).Downloading left :=
  hs.sendPacket fun k x => errorPacket_ne_dataPacket k x code str

theorem Server.Downloading.closeHandle (ctx : Context H φ) (hs : s.Downloading left) :
    (s.closeHandle ctx).Downloading left := by
  unfold Server.Downloading
  rw [session_closeHandle]
  exact Downloading.closed hs ..

theorem Server.Downloading.of_upload {h : H} (hh : s.handle = some h) (hw : s.modeWrite = true)
    (hS : ∀ S, session s.log = some S → S.write = true) : s.Downloading left := by
  refine Tftp.Downloading.of_upload ?_ hS
  intro k hk
  rw [cursor_eq hh] at hk
  exact (Option.some.inj hk).symm ▸ hw

theorem Server.Downloading.resendData (hs : s.Downloading left) (ht : s.Tracks)
    (hh : s.handle.isSome) : (s.resendData mem).Downloading left := by
  cases hd : s.lastData with
  | none =>
    unfold Server.resendData
    rw [hd]
    exact hs
  | some d =>
    obtain ⟨h, hh⟩ := Option.isSome_iff_exists.mp hh
    obtain ⟨S, hS, hpeer, hwrite, -⟩ := ht.begun _ (cursor_eq hh)
    rw [session_resendData s hd]
    unfold Server.Downloading
    rw [session_sendPacket]
    refine Downloading.packet hs _ _ _ ?_
    intro S' hS' hw k x hpacket
    obtain rfl := Option.some.inj (hS.symm.trans hS')
    obtain ⟨hnum, hone, hd'⟩ :=
      Downloading.last hs _ S d (cursor_eq hh) hS (hwrite.symm.trans hw) hd
    obtain ⟨hk, hx⟩ := dataPacket_inj (hpacket.symm.trans hd')
    exact ⟨hpeer.symm, S.read.length, hone, le_rfl, hk.trans hnum, hx⟩

theorem Server.Downloading.sendData (hctx : ReadsOn ctx left) {h : H} (hh : s.handle = some h)
    (hread : s.modeWrite = false) (ht : s.Tracks)
    (hs : Tftp.Downloading left s.cursor none s.fs (session s.log)) :
    (s.sendData ctx mem h).Downloading left := by
  obtain heq | ⟨fs, -, heq⟩ | ⟨data, fs, hdata, heq⟩ := sendData_cases ctx mem s h
  · rw [heq]
    unfold Server.Downloading
    rw [session_noBuffer]
    exact hs
  · rw [heq]
    unfold Server.Downloading
    rw [session_closeHandle, Server.sendError, session_sendPacket, session_hasRead_none]
    exact (hs.closed ..).packet _ _ _ fun _ _ _ k x h =>
      absurd h (errorPacket_ne_dataPacket k x _ _)
  · obtain ⟨S, hS, hpeer, hwrite, hhandle⟩ := ht.begun _ (cursor_eq hh)
    obtain ⟨htake, hdrop⟩ := hctx.read h s.fs data fs hdata
    have hh' : S.handle = h := hhandle
    rw [cursor_eq hh, hS] at hs
    have hread' := hs.read hread (hwrite.trans hread) (hh'.symm ▸ htake) (hh'.symm ▸ hdrop)
    have hsession : session (s.hasRead h (some data) fs).log = some (S.addRead data) := by
      rw [session_hasRead_some, hS]
      rfl
    have hcur := cursor_eq (s := s.hasRead h (some data) fs) hh
    rw [heq]
    refine Server.Downloading.resendData ?_ ?_ (Option.isSome_iff_exists.mpr ⟨h, hh⟩)
    · unfold Server.Downloading
      rw [hsession, hcur]
      exact hread'
    · refine ⟨?_, ?_⟩
      · rw [hsession, hcur]
        rintro _ ⟨⟩
        exact ⟨_, rfl, hpeer, hwrite, hhandle⟩
      · rintro d ⟨⟩
        exact ⟨_, _, rfl⟩

theorem buffer_of_acknowledged {h : H} (hs : s.Downloading left)
    (hack : Acknowledges s (.recv p sender mem)) (hh : s.handle = some h)
    (hw : s.modeWrite = false) (hr : ¬s.Refuses sender) (hop : p.sbuf 0 = 4)
    (hk : p.sbuf 1 = s.blknum) (ht : s.Tracks) : ∃ d, s.lastData = some d := by
  obtain ⟨S, x, hS, hsent, hlt⟩ := hack (by simp [hh]) hw hr hop
  obtain ⟨S', hS', hpeer, hwrite, -⟩ := ht.begun _ (cursor_eq hh)
  obtain rfl := Option.some.inj (hS.symm.trans hS')
  obtain ⟨-, i, hi, hir, hnum, -⟩ := Downloading.sent hs S hS (hwrite.trans hw) _ _ _ hsent
  cases hd : s.lastData with
  | some d => exact ⟨d, rfl⟩
  | none =>
    have hnext : s.blknum = number 16 (S.read.length + 1) :=
      Downloading.next hs _ S (cursor_eq hh) hS hw hd
    have hilen : i = S.read.length + 1 :=
      (number_eq_iff (w := 16) (by omega) (by omega)).mp (hnum.symm.trans (hk.trans hnext))
    omega

theorem downloading_move (hctx : ReadsOn ctx left) (ht : s.Tracks) (hs : s.Downloading left)
    (hr : ¬s.Refuses sender) (hack : Acknowledges s (.recv p sender mem))
    (h : Move ctx mem s p sender s') : s'.Downloading left := by
  cases h with
  | error code str => exact hs.sendError ..
  | malformed str hnone hp =>
    exact Server.Downloading.sendError (s := { s with timers := s.timers + 1 }) hs ..
  | notOpened write filename mode fs hnone hp ho =>
    refine Server.Downloading.sendError ?_ ..
    unfold Server.Downloading
    rw [session_notBegun]
    exact Downloading.closed hs ..
  | upload filename mode h fs hnone hop hp ho =>
    refine Server.Downloading.sendPacket ?_ fun k x => ackPacket_ne_dataPacket k _ x
    refine .of_upload rfl rfl ?_
    rw [session_begun]
    rintro S ⟨⟩
    rfl
  | download filename mode h fs hnone hop hp ho =>
    refine .sendData hctx rfl rfl ?_ ?_
    · unfold Server.Tracks
      rw [session_begun]
      exact .begin ht.buffer ..
    · rw [session_begun]
      exact .begin sender h
  | stored h fs hh hw hop hk hlen ho =>
    refine .of_upload hh hw ?_
    obtain ⟨S, hS, -, hwrite, -⟩ := ht.begun _ (cursor_eq hh)
    show ∀ S', session (Server.sendAck mem _ _).log = some S' → _
    rw [Server.sendAck, session_sendPacket, session_wrote_true, hS]
    rintro S' ⟨⟩
    exact hwrite.trans hw
  | storedLast h fs hh hw hop hk hlen ho =>
    obtain ⟨S, hS, -, hwrite, -⟩ := ht.begun _ (cursor_eq hh)
    refine Downloading.of_upload (by rintro k ⟨⟩) ?_
    rw [session_closeHandle, Server.sendAck, session_sendPacket, session_wrote_true, hS]
    rintro S' ⟨⟩
    exact hwrite.trans hw
  | failed h fs s' hh hw hop hk ho hc =>
    have herror : s'.Downloading left := by
      rw [hc]
      unfold Server.Downloading
      rw [session_closeHandle, Server.sendError, session_sendPacket, session_wrote_false]
      exact (Downloading.closed hs ..).packet _ _ _ fun _ _ _ k x h =>
        absurd h (errorPacket_ne_dataPacket k x _ _)
    split_ifs
    · exact herror.closeHandle ctx
    · subst hc
      exact herror
  | repeated h hh hw hop hk => exact hs.sendPacket fun k x => ackPacket_ne_dataPacket k _ x
  | advanced h hh hw hop hk hd =>
    obtain ⟨d, hd'⟩ := buffer_of_acknowledged hs hack hh hw hr hop hk ht
    refine .sendData (s := s.next) hctx hh hw (ht.next hh) ?_
    unfold Server.Downloading at hs
    rw [hd', cursor_eq hh] at hs
    rw [cursor_eq (s := s.next) hh]
    refine hs.advance hw ?_
    rfl
  | finished h d hh hw hop hk hd hlen => exact hs.closeHandle ctx

theorem downloading_step (hctx : ReadsOn ctx left) {a : Act} (ht : s.Tracks)
    (hs : s.Downloading left) (hack : Acknowledges s a) (h : step ctx s a = some s') :
    s'.Downloading left := by
  cases a with
  | recv p sender mem =>
    obtain rfl := Option.some.inj h
    obtain ⟨-, heq⟩ | ⟨hr, s', hmove, heq⟩ := recv_cases ctx mem s p sender
    · rw [heq]
      unfold Server.Downloading
      rw [session_push_freed]
      refine Server.Downloading.sendError (s := s.push [.taken .datagram]) ?_ ..
      unfold Server.Downloading
      rw [session_push_taken]
      exact hs
    · rw [heq]
      unfold Server.Downloading
      rw [session_push_freed]
      refine downloading_move (s := s.seen) hctx ?_ ?_ hr ?_ hmove
      · unfold Server.Tracks
        rw [session_seen]
        exact ht
      · unfold Server.Downloading
        rw [session_seen]
        exact hs
      · intro hh hw hr hop
        obtain ⟨S, x, hS, hrest⟩ := hack hh hw hr hop
        exact ⟨S, x, by rw [session_seen]; exact hS, hrest⟩
  | tmr mem =>
    obtain ⟨-, rfl⟩ : 0 < s.timers ∧ s.tmr ctx mem = s' := by
      simpa [step] using h
    obtain ⟨-, heq⟩ | ⟨h, hh, ⟨-, heq⟩ | ⟨-, -, -, heq⟩ | ⟨-, -, heq⟩⟩ := tmr_cases ctx mem s
    · rw [heq]
      exact hs
    · rw [heq]
      exact hs
    · rw [heq]
      exact Server.Downloading.resendData (s := s.ticked) hs ht
        (Option.isSome_iff_exists.mpr ⟨h, hh⟩)
    · rw [heq]
      exact Server.Downloading.closeHandle ctx (s := s.ticked) hs

end Step

/-- **Downloads.** In every run in which the other side acknowledges only what it has been sent:
each data packet of a transfer carries the block of the file that its number says. So a peer that
takes blocks in order from any of these packets, in any order and any number of times, has the first
blocks of the file, and all of it once it has got a short one. -/
theorem download_session (ctx : Context H φ) (left : H → φ → List Byte) (hctx : ReadsOn ctx left)
    (fs : φ) {s : Server H φ} (h : Reach (step ctx) Acknowledges (· = Server.init fs) s)
    {S : Session H φ} (hS : session s.log = some S) (hw : S.write = false)
    (hlen : S.read.length < 65536) {ps : List (BitVec 16 × List Byte)}
    (hps : ∀ p ∈ ps, ∃ q, (q, dataPacket p.1 p.2) ∈ S.sent) :
    ∃ k ≤ S.read.length,
      ps.foldl receive [] = firstBlocks (block 512 (left S.handle S.start)) k ∧
      ∀ x ∈ ps.foldl receive [], x.length < 512 →
        (ps.foldl receive []).flatten = left S.handle S.start := by
  have hinv : s.Tracks ∧ s.Downloading left := by
    refine h.invariant (I := fun s => s.Tracks ∧ s.Downloading left) ?_ ?_
    · rintro _ rfl
      exact ⟨.closed _, Tftp.Downloading.of_upload (by rintro k ⟨⟩) (by rintro S ⟨⟩)⟩
    · intro s a s' hs ha hstep
      exact ⟨tracks_step hs.1 hstep, downloading_step hctx hs.1 hs.2 ha hstep⟩
  have hpackets : ∀ p ∈ ps, ∃ j, 1 ≤ j ∧ j ≤ S.read.length ∧
      p = (number 16 j, block 512 (left S.handle S.start) j) := by
    intro p hp
    obtain ⟨q, hq⟩ := hps p hp
    obtain ⟨-, i, hi, hir, hnum, hx⟩ := Downloading.sent hinv.2 S hS hw q p.1 p.2 hq
    exact ⟨i, hi, hir, Prod.ext hnum hx⟩
  obtain ⟨k, hk, hfold⟩ :=
    foldl_receive (show S.read.length < 2 ^ 16 from hlen) hpackets
  refine ⟨k, hk, hfold, ?_⟩
  intro x hx hshort
  rw [hfold] at hx ⊢
  obtain ⟨i, hi, rfl⟩ := mem_firstBlocks.mp hx
  rw [length_block_lt_iff (by decide)] at hshort
  rw [flatten_firstBlocks, List.take_of_length_le]
  calc (left S.handle S.start).length ≤ 512 * (i + 1) := hshort.le
    _ ≤ 512 * k := Nat.mul_le_mul_left _ hi

/-- One file, of which the state is what is still to be read. -/
def source : Context Unit (List Byte) where
  toLwip := Lwip.documented
  openFile _ _ _ fs := (some (), fs)
  closeFile _ fs := fs
  readFile _ n fs := (some (fs.take n), fs.drop n)
  writeFile _ _ fs := (true, fs)

/-- "f", "octet", and an endpoint that asks for it. -/
def readRequest : Pbuf :=
  ⟨[0, 1, 0x66, 0, 0x6F, 0x63, 0x74, 0x65, 0x74, 0], [], fun _ => 0, by decide⟩

def reader : Endpoint := ⟨0xC0A80003, 50000⟩

/-- The server after a request to read a file of three bytes, and after a timeout. -/
def offered : Server Unit (List Byte) :=
  ((Server.init [1, 2, 3]).recv source (fun _ => true) readRequest reader).tmr source fun _ => true

end Psc.Tftp
