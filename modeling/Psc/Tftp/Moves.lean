import Psc.Tftp.Server

/-!
# What a datagram and a timeout can do

`Move` has one case for each way through the `switch` of `recv`, with what was tested on that way
(`dispatch_move`), and `sendData_cases` and `tmr_cases` do the same for the other two functions that
branch. The invariants of the server go by these cases and not by the code.

`recv_cases`: a datagram is turned away, or leads to a move from the state in which it is noted that
one has arrived.
-/

namespace Psc.Tftp

open Net Transition

variable {H φ : Type*} {ctx : Context H φ} {mem : Site → Bool} {s s' : Server H φ} {p : Pbuf}
  {sender : Endpoint}

namespace Server

/-- A transfer that has just begun. -/
def begun (s : Server H φ) (q : Endpoint) (write : Bool) (h : H) (fs : φ) : Server H φ :=
  { s with
    handle := some h
    addr := q.addr
    port := q.port
    blknum := 1
    modeWrite := write
    fs := fs
    timers := s.timers + 1
    log := s.log ++ [.opened q write (some h, fs)] }

/-- A file that could not be opened. -/
def notBegun (s : Server H φ) (q : Endpoint) (write : Bool) (fs : φ) : Server H φ :=
  { s with
    handle := none
    blknum := 1
    fs := fs
    timers := s.timers + 1
    log := s.log ++ [.opened q write (none, fs)] }

/-- A block that has been handed to the write. -/
def wrote (s : Server H φ) (h : H) (data : List Byte) (ok : Bool) (fs : φ) : Server H φ :=
  { s with fs := fs, log := s.log ++ [.wrote h data ok] }

/-- A block that has been read, in the buffer or not. -/
def hasRead (s : Server H φ) (h : H) (data : Option (List Byte)) (fs : φ) : Server H φ :=
  { s with
    fs := fs
    lastData := some (dataPacket s.blknum (data.getD []))
    log := s.log ++ (s.lastData.elim [] fun _ => [.freed (.packet .data)]) ++
      [.taken (.packet .data), .read h data] }

/-- The next block is expected, or read. -/
def next (s : Server H φ) : Server H φ := { s with blknum := s.blknum + 1 }

/-- A datagram from the other side has arrived. -/
def seen (s : Server H φ) : Server H φ :=
  { s with lastPkt := s.timer, retries := 0, log := s.log ++ [.taken .datagram] }

/-- A timeout has expired, and the next one is set. -/
def ticked (s : Server H φ) : Server H φ :=
  { s with timers := s.timers - 1 + 1, timer := s.timer + 1 }

/-- No buffer for the next block. -/
def noBuffer (s : Server H φ) : Server H φ :=
  { s with lastData := none, log := s.log ++ s.lastData.elim [] fun _ => [.freed (.packet .data)] }

end Server

open Server

/-- The ways through the `switch` of `recv`. -/
inductive Move (ctx : Context H φ) (mem : Site → Bool) (s : Server H φ) (p : Pbuf)
    (sender : Endpoint) : Server H φ → Prop
  | error (code : TftpError) (str : String) :
      Move ctx mem s p sender (s.sendError mem sender code str)
  | malformed (str : String) (hs : s.handle = none) (hp : parseRequest ctx.toLwip p = .error str) :
      Move ctx mem s p sender
        ({ s with timers := s.timers + 1 }.sendError mem sender .accessViolation str)
  | notOpened (write : Bool) (filename mode : List Byte) (fs : φ) (hs : s.handle = none)
      (hp : parseRequest ctx.toLwip p = .ok (filename, mode))
      (ho : ctx.openFile filename mode write s.fs = (none, fs)) :
      Move ctx mem s p sender ((s.notBegun sender write fs).sendError mem sender .fileNotFound
        "Unable to open requested file.")
  | upload (filename mode : List Byte) (h : H) (fs : φ) (hs : s.handle = none)
      (hop : p.sbuf 0 = 2) (hp : parseRequest ctx.toLwip p = .ok (filename, mode))
      (ho : ctx.openFile filename mode true s.fs = (some h, fs)) :
      Move ctx mem s p sender ((s.begun sender true h fs).sendAck mem 0)
  | download (filename mode : List Byte) (h : H) (fs : φ) (hs : s.handle = none)
      (hop : p.sbuf 0 = 1) (hp : parseRequest ctx.toLwip p = .ok (filename, mode))
      (ho : ctx.openFile filename mode false s.fs = (some h, fs)) :
      Move ctx mem s p sender ((s.begun sender false h fs).sendData ctx mem h)
  | stored (h : H) (fs : φ) (hs : s.handle = some h) (hw : s.modeWrite = true)
      (hop : p.sbuf 0 = 3) (hk : p.sbuf 1 = s.blknum) (hlen : 512 ≤ (ctx.removeHeader p 4).totLen)
      (ho : ctx.writeFile h ((ctx.removeHeader p 4).payload :: (ctx.removeHeader p 4).next) s.fs =
        (true, fs)) :
      Move ctx mem s p sender
        ((s.wrote h (ctx.removeHeader p 4).bytes true fs).sendAck mem (p.sbuf 1)).next
  | storedLast (h : H) (fs : φ) (hs : s.handle = some h) (hw : s.modeWrite = true)
      (hop : p.sbuf 0 = 3) (hk : p.sbuf 1 = s.blknum) (hlen : (ctx.removeHeader p 4).totLen < 512)
      (ho : ctx.writeFile h ((ctx.removeHeader p 4).payload :: (ctx.removeHeader p 4).next) s.fs =
        (true, fs)) :
      Move ctx mem s p sender
        (((s.wrote h (ctx.removeHeader p 4).bytes true fs).sendAck mem (p.sbuf 1)).closeHandle ctx)
  | failed (h : H) (fs : φ) (s' : Server H φ) (hs : s.handle = some h) (hw : s.modeWrite = true)
      (hop : p.sbuf 0 = 3) (hk : p.sbuf 1 = s.blknum)
      (ho : ctx.writeFile h ((ctx.removeHeader p 4).payload :: (ctx.removeHeader p 4).next) s.fs =
        (false, fs))
      (hc : s' = ((s.wrote h (ctx.removeHeader p 4).bytes false fs).sendError mem sender
        .accessViolation "error writing file").closeHandle ctx) :
      Move ctx mem s p sender
        (if (ctx.removeHeader p 4).totLen < 512 then s'.closeHandle ctx else s'.next)
  | repeated (h : H) (hs : s.handle = some h) (hw : s.modeWrite = true) (hop : p.sbuf 0 = 3)
      (hk : p.sbuf 1 + 1 = s.blknum) : Move ctx mem s p sender (s.sendAck mem (p.sbuf 1))
  | advanced (h : H) (hs : s.handle = some h) (hw : s.modeWrite = false) (hop : p.sbuf 0 = 4)
      (hk : p.sbuf 1 = s.blknum) (hd : ∀ d, s.lastData = some d → d.length = 516) :
      Move ctx mem s p sender (s.next.sendData ctx mem h)
  | finished (h : H) (d : List Byte) (hs : s.handle = some h) (hw : s.modeWrite = false)
      (hop : p.sbuf 0 = 4) (hk : p.sbuf 1 = s.blknum) (hd : s.lastData = some d)
      (hlen : d.length ≠ 516) : Move ctx mem s p sender (s.closeHandle ctx)

section Cases

theorem request_eq (ctx : Context H φ) (mem : Site → Bool) (s : Server H φ) (p : Pbuf)
    (sender : Endpoint) (write : Bool) (hs : s.handle = none) :
    s.request ctx mem p sender write =
      match parseRequest ctx.toLwip p with
      | .error str => { s with timers := s.timers + 1 }.sendError mem sender .accessViolation str
      | .ok (filename, mode) =>
        match ctx.openFile filename mode write s.fs with
        | (none, fs) => (s.notBegun sender write fs).sendError mem sender .fileNotFound
            "Unable to open requested file."
        | (some h, fs) =>
          if write then (s.begun sender write h fs).sendAck mem 0
          else (s.begun sender write h fs).sendData ctx mem h := by
  unfold Server.request
  rw [if_neg (by simp [hs])]
  cases parseRequest ctx.toLwip p with
  | error str => rfl
  | ok r =>
    dsimp only
    rcases ho : ctx.openFile r.1 r.2 write s.fs with ⟨o, fs⟩
    cases o with
    | none => rfl
    | some h => rfl

theorem request_move {write : Bool} (hop : p.sbuf 0 = if write then 2 else 1) :
    Move ctx mem s p sender (s.request ctx mem p sender write) := by
  by_cases hbusy : s.handle.isSome = true
  · unfold Server.request
    rw [if_pos hbusy]
    exact .error ..
  · have hs : s.handle = none := by simpa using hbusy
    rw [request_eq ctx mem s p sender write hs]
    rcases hp : parseRequest ctx.toLwip p with str | ⟨filename, mode⟩
    · exact .malformed str hs hp
    · dsimp only
      rcases ho : ctx.openFile filename mode write s.fs with ⟨_ | h, fs⟩
      · exact .notOpened write filename mode fs hs hp ho
      · cases write with
        | true => exact .upload filename mode h fs hs hop hp ho
        | false => exact .download filename mode h fs hs hop hp ho

theorem store_eq (ctx : Context H φ) (mem : Site → Bool) (s : Server H φ) (p : Pbuf)
    (sender : Endpoint) (h : H) :
    s.store ctx mem p sender h =
      match ctx.writeFile h ((ctx.removeHeader p 4).payload :: (ctx.removeHeader p 4).next)
          s.fs with
      | (true, fs) =>
        if (ctx.removeHeader p 4).totLen < 512 then
          ((s.wrote h (ctx.removeHeader p 4).bytes true fs).sendAck mem (p.sbuf 1)).closeHandle ctx
        else ((s.wrote h (ctx.removeHeader p 4).bytes true fs).sendAck mem (p.sbuf 1)).next
      | (false, fs) =>
        if (ctx.removeHeader p 4).totLen < 512 then
          (((s.wrote h (ctx.removeHeader p 4).bytes false fs).sendError mem sender .accessViolation
            "error writing file").closeHandle ctx).closeHandle ctx
        else (((s.wrote h (ctx.removeHeader p 4).bytes false fs).sendError mem sender
          .accessViolation "error writing file").closeHandle ctx).next := by
  unfold Server.store
  dsimp only
  rcases ctx.writeFile h ((ctx.removeHeader p 4).payload :: (ctx.removeHeader p 4).next) s.fs with
    ⟨_ | _, fs⟩
  · rfl
  · rfl

theorem store_move {h : H} (hs : s.handle = some h) (hw : s.modeWrite = true)
    (hop : p.sbuf 0 = 3) (hk : p.sbuf 1 = s.blknum) :
    Move ctx mem s p sender (s.store ctx mem p sender h) := by
  rw [store_eq]
  rcases ho : ctx.writeFile h ((ctx.removeHeader p 4).payload :: (ctx.removeHeader p 4).next)
    s.fs with ⟨_ | _, fs⟩
  · exact .failed h fs _ hs hw hop hk ho rfl
  · by_cases hlen : (ctx.removeHeader p 4).totLen < 512
    · dsimp only
      rw [if_pos hlen]
      exact .storedLast h fs hs hw hop hk hlen ho
    · dsimp only
      rw [if_neg hlen]
      exact .stored h fs hs hw hop hk (not_lt.mp hlen) ho

theorem data_move (hop : p.sbuf 0 = 3) : Move ctx mem s p sender (s.data ctx mem p sender) := by
  unfold Server.data
  cases hs : s.handle with
  | none => exact .error ..
  | some h =>
    dsimp only
    split_ifs with hw hk hk'
    · exact store_move hs hw hop hk
    · exact .repeated h hs hw hop hk'
    · exact .error ..
    · exact .error ..

theorem ack_eq (ctx : Context H φ) (mem : Site → Bool) (p : Pbuf) (sender : Endpoint) {h : H}
    (hs : s.handle = some h) :
    s.ack ctx mem p sender =
      if s.modeWrite then s.sendError mem sender .accessViolation "Not a read connection"
      else if p.sbuf 1 ≠ s.blknum then
        s.sendError mem sender .unknownTrfrId "Wrong block number"
      else if s.lastData.elim false fun d => d.length ≠ 516 then s.closeHandle ctx
      else s.next.sendData ctx mem h := by
  unfold Server.ack
  split
  · rename_i hnone
    rw [hs] at hnone
    cases hnone
  · rename_i h' hs'
    obtain rfl := Option.some.inj (hs.symm.trans hs')
    rfl

theorem ack_move (hop : p.sbuf 0 = 4) : Move ctx mem s p sender (s.ack ctx mem p sender) := by
  cases hs : s.handle with
  | none =>
    unfold Server.ack
    rw [hs]
    exact .error ..
  | some h =>
    rw [ack_eq ctx mem p sender hs]
    split_ifs with hw hk hlast
    · exact .error ..
    · exact .error ..
    · cases hd : s.lastData with
      | none => simp [hd] at hlast
      | some d =>
        rw [hd] at hlast
        exact .finished h d hs (by simpa using hw) hop (not_not.mp hk) hd (of_decide_eq_true hlast)
    · refine .advanced h hs (by simpa using hw) hop (not_not.mp hk) ?_
      intro d hd
      rw [hd] at hlast
      exact not_not.mp fun hne => hlast (decide_eq_true hne)

theorem dispatch_move : Move ctx mem s p sender (s.dispatch ctx mem p sender) := by
  unfold Server.dispatch
  dsimp only
  split_ifs with h1 h2 h3 h4
  · exact request_move h1
  · exact request_move h2
  · exact data_move h3
  · exact ack_move h4
  · exact .error ..

theorem recv_cases (ctx : Context H φ) (mem : Site → Bool) (s : Server H φ) (p : Pbuf)
    (sender : Endpoint) :
    (s.Refuses sender ∧ s.recv ctx mem p sender =
      ((s.push [.taken .datagram]).sendError mem sender .accessViolation
        "Only one connection at a time is supported").push [.freed .datagram]) ∨
    ¬s.Refuses sender ∧ ∃ s', Move ctx mem s.seen p sender s' ∧
      s.recv ctx mem p sender = s'.push [.freed .datagram] := by
  unfold Server.recv
  dsimp only
  by_cases hr : s.Refuses sender
  · exact .inl ⟨hr, by rw [if_pos (show (s.push [.taken .datagram]).Refuses sender from hr)]⟩
  · refine .inr ⟨hr, s.seen.dispatch ctx mem p sender, dispatch_move, ?_⟩
    rw [if_neg (show ¬(s.push [.taken .datagram]).Refuses sender from hr)]
    rfl

theorem sendData_eq (ctx : Context H φ) (mem : Site → Bool) (s : Server H φ) (h : H) :
    s.sendData ctx mem h =
      if mem .data then
        match ctx.readFile h 512 s.fs with
        | (none, fs) => ((s.hasRead h none fs).sendError mem s.peer .accessViolation
            "Error occurred while reading the file.").closeHandle ctx
        | (some data, fs) => (s.hasRead h (some data) fs).resendData mem
      else s.noBuffer := by
  unfold Server.sendData
  dsimp only
  split_ifs with hmem
  · rcases hr : ctx.readFile h 512 s.fs with ⟨r, fs⟩
    have hr' : ctx.readFile h maxPayloadSize s.fs = (r, fs) := hr
    simp only [push, hr']
    cases r with
    | none => rfl
    | some data => rfl
  · rfl

/-- The three ways through `send_data`. -/
theorem sendData_cases (ctx : Context H φ) (mem : Site → Bool) (s : Server H φ) (h : H) :
    s.sendData ctx mem h = s.noBuffer ∨
    (∃ fs, ctx.readFile h 512 s.fs = (none, fs) ∧
      s.sendData ctx mem h = ((s.hasRead h none fs).sendError mem s.peer .accessViolation
        "Error occurred while reading the file.").closeHandle ctx) ∨
    ∃ data fs, ctx.readFile h 512 s.fs = (some data, fs) ∧
      s.sendData ctx mem h = (s.hasRead h (some data) fs).resendData mem := by
  rw [sendData_eq]
  split_ifs with hmem
  · rcases ctx.readFile h 512 s.fs with ⟨_ | data, fs⟩
    · exact .inr (.inl ⟨fs, rfl, rfl⟩)
    · exact .inr (.inr ⟨data, fs, rfl, rfl⟩)
  · exact .inl rfl

theorem tmr_eq (ctx : Context H φ) (mem : Site → Bool) {h : H} (hs : s.handle = some h) :
    s.tmr ctx mem =
      if 10 < s.timer + 1 - s.lastPkt then
        if s.lastData.isSome ∧ s.retries < 5 then
          { s.ticked.resendData mem with retries := s.retries + 1 }
        else s.ticked.closeHandle ctx
      else s.ticked := by
  unfold Server.tmr
  dsimp only
  split
  · rename_i hnone
    rw [hs] at hnone
    cases hnone
  · rfl

/-- The ways through `tftp_tmr`. -/
theorem tmr_cases (ctx : Context H φ) (mem : Site → Bool) (s : Server H φ) :
    (s.handle = none ∧ s.tmr ctx mem = { s with timers := s.timers - 1, timer := s.timer + 1 }) ∨
    ∃ h, s.handle = some h ∧
      ((s.timer + 1 - s.lastPkt ≤ 10 ∧ s.tmr ctx mem = s.ticked) ∨
      (10 < s.timer + 1 - s.lastPkt ∧ s.lastData.isSome ∧ s.retries < 5 ∧ s.tmr ctx mem =
        { s.ticked.resendData mem with retries := s.retries + 1 }) ∨
      (10 < s.timer + 1 - s.lastPkt ∧ ¬(s.lastData.isSome ∧ s.retries < 5) ∧ s.tmr ctx mem =
        s.ticked.closeHandle ctx)) := by
  cases hs : s.handle with
  | none =>
    refine .inl ⟨rfl, ?_⟩
    unfold Server.tmr
    simp only [hs]
  | some h =>
    refine .inr ⟨h, rfl, ?_⟩
    rw [tmr_eq ctx mem hs]
    split_ifs with hlate hretry
    · exact .inr (.inl ⟨hlate, hretry.1, hretry.2, rfl⟩)
    · exact .inr (.inr ⟨hlate, hretry, rfl⟩)
    · exact .inl ⟨not_lt.mp hlate, rfl⟩

end Cases

end Psc.Tftp
