import Psc.Lib.CString
import Psc.Lib.Transition
import Psc.Net.Framing

/-!
# The TFTP server

`tftp_server.c`: one transfer at a time, in blocks of 512 bytes. `recv` is called for each datagram
on the server's port, `tftp_tmr` when one of its timeouts expires. The file system is behind the
four callbacks of `tftp_context`. In this version of the program the call that starts the server is
commented out.

A step is one call of either, with the environment's choices: the datagram, who sent it, and which
of the calls of `pbuf_alloc` succeed. `log` is what the server has done so far.
-/

namespace Psc.Tftp

open Net

/-! ## Datagrams -/

/-- A received `pbuf`: what its first buffer holds, and the buffers chained to it. `stale` is the
memory behind the first buffer, which a header that is cut short is read from. -/
structure Pbuf where
  payload : List Byte
  next : List (List Byte)
  stale : ℕ → Byte
  fits : payload.length + next.flatten.length < 65535

namespace Pbuf

variable (p : Pbuf)

/-- The bytes of the whole chain. -/
def bytes : List Byte := p.payload ++ p.next.flatten

/-- `tot_len`. -/
def totLen : ℕ := p.bytes.length

/-- A byte of the first buffer. -/
def byte (i : ℕ) : Byte := if h : i < p.payload.length then p.payload[i] else p.stale i

/-- `lwip_ntohs(sbuf[i])`. -/
def sbuf (i : ℕ) : BitVec 16 := p.byte (2 * i) ++ p.byte (2 * i + 1)

end Pbuf

/-- The functions of lwIP that read a datagram, and what its documentation says of them:
`pbuf_memfind` of a NUL, which is 0xFFFF if there is none, `pbuf_copy_partial`, and
`pbuf_remove_header`, which leaves the datagram as it is if its first buffer is too short. -/
structure Lwip where
  memfindNul : Pbuf → ℕ → ℕ
  copyPartial : Pbuf → ℕ → ℕ → List Byte
  removeHeader : Pbuf → ℕ → Pbuf
  memfindNul_eq : ∀ p start str rest, p.bytes.drop start = str ++ 0 :: rest → (0 : Byte) ∉ str →
    memfindNul p start = start + str.length
  memfindNul_of_notMem : ∀ p start, (0 : Byte) ∉ p.bytes.drop start → memfindNul p start = 0xFFFF
  copyPartial_eq : ∀ p len offset, copyPartial p len offset = (p.bytes.drop offset).take len
  bytes_removeHeader : ∀ p n, n ≤ p.payload.length → (removeHeader p n).bytes = p.bytes.drop n
  removeHeader_of_lt : ∀ p n, p.payload.length < n → removeHeader p n = p

namespace Pbuf

variable (p : Pbuf)

def findNul (start : ℕ) : ℕ :=
  match (p.bytes.drop start).findIdx? (· = 0) with
  | some i => start + i
  | none => 0xFFFF

def copyBytes (len offset : ℕ) : List Byte := (p.bytes.drop offset).take len

def dropHeader (n : ℕ) : Pbuf :=
  if n ≤ p.payload.length then
    { p with
      payload := p.payload.drop n
      fits := by
        have := p.fits
        rw [List.length_drop]
        omega }
  else p

variable {p}

theorem findIdx?_nul {str : List Byte} (h : (0 : Byte) ∉ str) :
    str.findIdx? (· = (0 : Byte)) = none := by
  rw [List.findIdx?_eq_none_iff]
  intro c hc
  exact decide_eq_false (ne_of_mem_of_not_mem hc h)

theorem findNul_eq {start : ℕ} {str rest : List Byte} (h : p.bytes.drop start = str ++ 0 :: rest)
    (hnul : (0 : Byte) ∉ str) : p.findNul start = start + str.length := by
  have hfind : (p.bytes.drop start).findIdx? (· = 0) = some str.length := by
    rw [h, List.findIdx?_append, findIdx?_nul hnul, List.findIdx?_cons, if_pos (by simp),
      Option.map_some, Nat.zero_add, Option.none_or]
  unfold findNul
  rw [hfind]

theorem findNul_of_notMem {start : ℕ} (h : (0 : Byte) ∉ p.bytes.drop start) :
    p.findNul start = 0xFFFF := by
  unfold findNul
  rw [findIdx?_nul h]

theorem bytes_dropHeader {n : ℕ} (h : n ≤ p.payload.length) :
    (p.dropHeader n).bytes = p.bytes.drop n := by
  unfold dropHeader
  rw [if_pos h]
  exact (List.drop_append_of_le_length h).symm

theorem dropHeader_of_lt {n : ℕ} (h : p.payload.length < n) : p.dropHeader n = p :=
  if_neg (not_le.mpr h)

end Pbuf

/-- Functions that do what is documented. -/
def Lwip.documented : Lwip where
  memfindNul := Pbuf.findNul
  copyPartial := Pbuf.copyBytes
  removeHeader := Pbuf.dropHeader
  memfindNul_eq _ _ _ _ := Pbuf.findNul_eq
  memfindNul_of_notMem _ _ := Pbuf.findNul_of_notMem
  copyPartial_eq _ _ _ := rfl
  bytes_removeHeader _ _ := Pbuf.bytes_dropHeader
  removeHeader_of_lt _ _ := Pbuf.dropHeader_of_lt

/-- An address and a port. -/
structure Endpoint where
  addr : BitVec 32
  port : BitVec 16
  deriving DecidableEq

/-- `enum tftp_error`, as far as it is used. -/
inductive TftpError where
  | fileNotFound
  | accessViolation
  | illegalOperation
  | unknownTrfrId
  deriving DecidableEq

def TftpError.code : TftpError → BitVec 16
  | fileNotFound => 1
  | accessViolation => 2
  | illegalOperation => 4
  | unknownTrfrId => 5

/-- The characters of a string. -/
def chars (str : String) : List Byte := str.toList.map fun c => BitVec.ofNat 8 c.toNat

def dataPacket (blknum : BitVec 16) (data : List Byte) : List Byte := be16 3 ++ be16 blknum ++ data

def ackPacket (blknum : BitVec 16) : List Byte := be16 4 ++ be16 blknum

def errorPacket (code : TftpError) (str : String) : List Byte :=
  be16 5 ++ be16 code.code ++ chars str ++ [0]

/-- `TFTP_MAX_PAYLOAD_SIZE`. -/
def maxPayloadSize : ℕ := 512

/-! ## The server -/

/-- `struct tftp_context`, and lwIP. A file is opened by name and mode; a failing read returns
nothing, a failing write `false`. The write gets the buffers of the chain. -/
structure Context (H φ : Type*) extends Lwip where
  openFile : List Byte → List Byte → Bool → φ → Option H × φ
  closeFile : H → φ → φ
  readFile : H → ℕ → φ → Option (List Byte) × φ
  writeFile : H → List (List Byte) → φ → Bool × φ

/-- The calls of `pbuf_alloc`: in `send_error`, `send_ack`, `resend_data` and `send_data`. -/
inductive Site where
  | error
  | ack
  | resend
  | data
  deriving DecidableEq

/-- The variables that a buffer is held in: the parameter of `recv`, the local ones of `send_error`,
`send_ack` and `resend_data`, and `last_data`. -/
inductive Buffer where
  | datagram
  | packet (site : Site)
  deriving DecidableEq

/-- What the server does: it takes a buffer (the datagram, or one from `pbuf_alloc`) and frees it,
sends what is in one, and calls back. -/
inductive Effect (H φ : Type*) where
  | taken (b : Buffer)
  | freed (b : Buffer)
  | sent (b : Buffer) (dest : Endpoint) (packet : List Byte)
  | opened (peer : Endpoint) (write : Bool) (r : Option H × φ)
  | closed (h : H)
  | read (h : H) (data : Option (List Byte))
  | wrote (h : H) (data : List Byte) (ok : Bool)

/-- `tftp_state`, with the file system, the number of pending timeouts and the log. Each call of
`sys_timeout` sets one, as long as lwIP has room for it; `timer` does not overflow. -/
structure Server (H φ : Type*) where
  handle : Option H
  lastData : Option (List Byte)
  addr : BitVec 32
  port : BitVec 16
  timer : ℤ
  lastPkt : ℤ
  blknum : BitVec 16
  retries : BitVec 8
  modeWrite : Bool
  fs : φ
  timers : ℕ
  log : List (Effect H φ)

variable {H φ : Type*}

namespace Server

variable (ctx : Context H φ) (mem : Site → Bool) (s : Server H φ)

/-- The other side of the transfer. -/
def peer : Endpoint := ⟨s.addr, s.port⟩

def push (es : List (Effect H φ)) : Server H φ := { s with log := s.log ++ es }

/-- A packet in a buffer of its own, if there is one. -/
def sendPacket (site : Site) (dest : Endpoint) (packet : List Byte) : Server H φ :=
  s.push (if mem site then
    [.taken (.packet site), .sent (.packet site) dest packet, .freed (.packet site)] else [])

/-- `close_handle`. `sys_untimeout` takes one pending timeout off. -/
def closeHandle : Server H φ :=
  { s with
    port := 0
    addr := 0
    lastData := none
    timers := s.timers - 1
    handle := none
    fs := s.handle.elim s.fs fun h => ctx.closeFile h s.fs
    log := s.log ++ (s.lastData.elim [] fun _ => [.freed (.packet .data)]) ++
      s.handle.elim [] fun h => [.closed h] }

def sendError (dest : Endpoint) (code : TftpError) (str : String) : Server H φ :=
  s.sendPacket mem .error dest (errorPacket code str)

def sendAck (blknum : BitVec 16) : Server H φ :=
  s.sendPacket mem .ack s.peer (ackPacket blknum)

/-- `resend_data`, which is called with a buffer in `last_data`. -/
def resendData : Server H φ := s.lastData.elim s (s.sendPacket mem .resend s.peer)

/-- `send_data`, with the handle, which is not NULL where it is called. -/
def sendData (h : H) : Server H φ :=
  let s := s.push (s.lastData.elim [] fun _ => [.freed (.packet .data)])
  if mem .data then
    let r := ctx.readFile h maxPayloadSize s.fs
    -- the new buffer, of which only the header is filled in yet
    let s := { s with fs := r.2, lastData := some (dataPacket s.blknum []) }
    let s := s.push [.taken (.packet .data), .read h r.1]
    match r.1 with
    | none =>
      (s.sendError mem s.peer .accessViolation
        "Error occurred while reading the file.").closeHandle ctx
    | some data => { s with lastData := some (dataPacket s.blknum data) }.resendData mem
  else { s with lastData := none }

end Server

/-- The file name and the mode of a request, or the text of an error. -/
def parseRequest (lwip : Lwip) (p : Pbuf) : Except String (List Byte × List Byte) :=
  let filenameEndOffset := lwip.memfindNul p 2
  if 21 < (filenameEndOffset + 0xFFFF) % 65536 then
    .error "Filename too long/not NULL terminated"
  else
    let filename := lwip.copyPartial p (filenameEndOffset - 1) 2
    let modeEndOffset := lwip.memfindNul p (filenameEndOffset + 1)
    if 8 < (modeEndOffset + 65536 - filenameEndOffset) % 65536 then
      .error "Mode too long/not NULL terminated"
    else
      let mode := lwip.copyPartial p (modeEndOffset - filenameEndOffset) (filenameEndOffset + 1)
      .ok (CString.str 0 filename, CString.str 0 mode)

namespace Server

variable (ctx : Context H φ) (mem : Site → Bool) (s : Server H φ)

/-- The cases `TFTP_RRQ` and `TFTP_WRQ` of `recv`. -/
def request (p : Pbuf) (sender : Endpoint) (write : Bool) : Server H φ :=
  if s.handle.isSome then
    s.sendError mem sender .accessViolation "Only one connection at a time is supported"
  else
    let s := { s with timers := s.timers + 1 }
    match parseRequest ctx.toLwip p with
    | .error str => s.sendError mem sender .accessViolation str
    | .ok (filename, mode) =>
      let r := ctx.openFile filename mode write s.fs
      let s := { s with handle := r.1, blknum := 1, fs := r.2 }
      let s := s.push [.opened sender write r]
      match r.1 with
      | none => s.sendError mem sender .fileNotFound "Unable to open requested file."
      | some h =>
        let s := { s with addr := sender.addr, port := sender.port, modeWrite := write }
        if write then s.sendAck mem 0 else s.sendData ctx mem h

/-- The case `TFTP_DATA` of `recv`, with the number that is expected. -/
def store (p : Pbuf) (sender : Endpoint) (h : H) : Server H φ :=
  let p' := ctx.removeHeader p 4
  let r := ctx.writeFile h (p'.payload :: p'.next) s.fs
  let s := { s with fs := r.2 }.push [.wrote h p'.bytes r.1]
  let s :=
    if r.1 then s.sendAck mem (p.sbuf 1)
    else (s.sendError mem sender .accessViolation "error writing file").closeHandle ctx
  if p'.totLen < maxPayloadSize then s.closeHandle ctx
  else { s with blknum := s.blknum + 1 }

/-- The case `TFTP_DATA` of `recv`. -/
def data (p : Pbuf) (sender : Endpoint) : Server H φ :=
  match s.handle with
  | none => s.sendError mem sender .accessViolation "No connection"
  | some h =>
    if s.modeWrite then
      let blknum := p.sbuf 1
      if blknum = s.blknum then s.store ctx mem p sender h
      else if blknum + 1 = s.blknum then s.sendAck mem blknum
      else s.sendError mem sender .unknownTrfrId "Wrong block number"
    else s.sendError mem sender .accessViolation "Not a write connection"

/-- The case `TFTP_ACK` of `recv`. -/
def ack (p : Pbuf) (sender : Endpoint) : Server H φ :=
  match s.handle with
  | none => s.sendError mem sender .accessViolation "No connection"
  | some h =>
    if s.modeWrite then s.sendError mem sender .accessViolation "Not a read connection"
    else if p.sbuf 1 ≠ s.blknum then
      s.sendError mem sender .unknownTrfrId "Wrong block number"
    else
      let lastpkt := s.lastData.elim false fun d => d.length ≠ maxPayloadSize + 4
      if lastpkt then s.closeHandle ctx
      else { s with blknum := s.blknum + 1 }.sendData ctx mem h

/-- `recv` turns a datagram away that is not from the other side of the transfer. -/
def Refuses (sender : Endpoint) : Prop :=
  s.port ≠ 0 ∧ sender.port ≠ s.port ∨ s.addr ≠ 0 ∧ s.addr ≠ sender.addr

instance (sender : Endpoint) : Decidable (s.Refuses sender) :=
  inferInstanceAs (Decidable (_ ∨ _))

/-- The `switch` of `recv`. -/
def dispatch (p : Pbuf) (sender : Endpoint) : Server H φ :=
  let opcode := p.sbuf 0
  if opcode = 1 then s.request ctx mem p sender false
  else if opcode = 2 then s.request ctx mem p sender true
  else if opcode = 3 then s.data ctx mem p sender
  else if opcode = 4 then s.ack ctx mem p sender
  else s.sendError mem sender .illegalOperation "Unknown operation"

/-- `recv`. -/
def recv (p : Pbuf) (sender : Endpoint) : Server H φ :=
  let s := s.push [.taken .datagram]
  let s :=
    if s.Refuses sender then
      s.sendError mem sender .accessViolation "Only one connection at a time is supported"
    else { s with lastPkt := s.timer, retries := 0 }.dispatch ctx mem p sender
  s.push [.freed .datagram]

/-- `tftp_tmr`, called by a timeout that is no longer pending. -/
def tmr : Server H φ :=
  let s := { s with timers := s.timers - 1, timer := s.timer + 1 }
  match s.handle with
  | none => s
  | some _ =>
    let s := { s with timers := s.timers + 1 }
    if 10 < s.timer - s.lastPkt then
      if s.lastData.isSome ∧ s.retries < 5 then
        { s.resendData mem with retries := s.retries + 1 }
      else s.closeHandle ctx
    else s

/-- `tftp_init`, with a file system. -/
def init (fs : φ) : Server H φ where
  handle := none
  lastData := none
  addr := 0
  port := 0
  timer := 0
  lastPkt := 0
  blknum := 0
  retries := 0
  modeWrite := false
  fs := fs
  timers := 0
  log := []

end Server

/-- A datagram, or a timeout that expires. -/
inductive Act where
  | recv (p : Pbuf) (sender : Endpoint) (mem : Site → Bool)
  | tmr (mem : Site → Bool)

/-- A step of the server. -/
def step (ctx : Context H φ) (s : Server H φ) : Act → Option (Server H φ)
  | .recv p sender mem => some (s.recv ctx mem p sender)
  | .tmr mem => if 0 < s.timers then some (s.tmr ctx mem) else none

end Psc.Tftp
