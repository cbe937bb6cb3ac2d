import Mathlib.Tactic

/-!
# Message framing

`pscmsg.c`: a message on a connection is 'P', 'S', its identifier and the length of its payload,
both big-endian, and the payload. The functions are total in what the network does: `send` and
`recv` may move fewer bytes than asked for, or fail, as the `Outcome` of each call says.

1. A loop that asks for the rest until it has everything gets it, however the stream is cut
   (`sendall_eq`, `recvall_ok`), and fails if the stream ends before (`recvall_short`).
2. `psc_recvskip` discards in chunks of 128 bytes and a tail (`recvskip_ok`).
3. So `psc_recvmsg` takes one frame from the stream and no byte more (`recvmsg_frame`), or fails
   (`recvmsg_eio`, `recvmsg_short`), and `framing_round_trip` follows by induction on the messages.
-/

namespace Psc.Net

abbrev Byte := BitVec 8

/-- What the functions return if not 0. -/
inductive Errno where
  | enotconn
  | eio
  | other (code : ℕ)

/-- What a call of `send` or `recv` does: it moves a piece of at most `n` bytes, or it fails. -/
inductive Outcome where
  | piece (n : ℕ)
  | fail (e : Errno)

/-! ## Byte order -/

/-- `htons` and `ntohs`. -/
def htons (x : BitVec 16) : BitVec 16 := x.extractLsb' 0 8 ++ x.extractLsb' 8 8

/-- `htonl` and `ntohl`. -/
def htonl (x : BitVec 32) : BitVec 32 :=
  x.extractLsb' 0 8 ++ x.extractLsb' 8 8 ++ x.extractLsb' 16 8 ++ x.extractLsb' 24 8

/-- A half word in memory, low byte first. -/
def store16 (x : BitVec 16) : List Byte := [x.extractLsb' 0 8, x.extractLsb' 8 8]

/-- A word in memory, low byte first. -/
def store32 (x : BitVec 32) : List Byte :=
  [x.extractLsb' 0 8, x.extractLsb' 8 8, x.extractLsb' 16 8, x.extractLsb' 24 8]

/-- The half word at offset `k`. -/
def load16 (b : List Byte) (k : ℕ) : BitVec 16 := b.getD (k + 1) 0 ++ b.getD k 0

/-- The word at offset `k`. -/
def load32 (b : List Byte) (k : ℕ) : BitVec 32 :=
  b.getD (k + 3) 0 ++ b.getD (k + 2) 0 ++ b.getD (k + 1) 0 ++ b.getD k 0

/-- The bytes of a half word, high byte first. -/
def be16 (x : BitVec 16) : List Byte := [x.extractLsb' 8 8, x.extractLsb' 0 8]

/-- The bytes of a word, high byte first. -/
def be32 (x : BitVec 32) : List Byte :=
  [x.extractLsb' 24 8, x.extractLsb' 16 8, x.extractLsb' 8 8, x.extractLsb' 0 8]

theorem extract16_append (a b : Byte) :
    (a ++ b).extractLsb' 0 8 = b ∧ (a ++ b).extractLsb' 8 8 = a := by
  constructor <;> (ext i hi; grind)

theorem extract32_append (a b c d : Byte) :
    (a ++ b ++ c ++ d).extractLsb' 0 8 = d ∧ (a ++ b ++ c ++ d).extractLsb' 8 8 = c ∧
      (a ++ b ++ c ++ d).extractLsb' 16 8 = b ∧ (a ++ b ++ c ++ d).extractLsb' 24 8 = a := by
  refine ⟨?_, ?_, ?_, ?_⟩ <;> (ext i hi; grind)

theorem append_extract16 (x : BitVec 16) : x.extractLsb' 8 8 ++ x.extractLsb' 0 8 = x := by
  ext i hi
  grind

theorem append_extract32 (x : BitVec 32) :
    x.extractLsb' 24 8 ++ x.extractLsb' 16 8 ++ x.extractLsb' 8 8 ++ x.extractLsb' 0 8 = x := by
  ext i hi
  grind

theorem be16_append (a b : Byte) : be16 (a ++ b) = [a, b] := by
  obtain ⟨h0, h1⟩ := extract16_append a b
  rw [be16, h0, h1]

theorem be32_append (a b c d : Byte) : be32 (a ++ b ++ c ++ d) = [a, b, c, d] := by
  obtain ⟨h0, h1, h2, h3⟩ := extract32_append a b c d
  rw [be32, h0, h1, h2, h3]

theorem store16_htons (x : BitVec 16) : store16 (htons x) = be16 x := by
  obtain ⟨h0, h1⟩ := extract16_append (x.extractLsb' 0 8) (x.extractLsb' 8 8)
  rw [store16, htons, h0, h1, be16]

theorem store32_htonl (x : BitVec 32) : store32 (htonl x) = be32 x := by
  obtain ⟨h0, h1, h2, h3⟩ := extract32_append (x.extractLsb' 0 8) (x.extractLsb' 8 8)
    (x.extractLsb' 16 8) (x.extractLsb' 24 8)
  rw [store32, htonl, h0, h1, h2, h3, be32]

theorem htons_append (a b : Byte) : htons (b ++ a) = a ++ b := by
  obtain ⟨h0, h1⟩ := extract16_append b a
  rw [htons, h0, h1]

theorem htonl_append (a b c d : Byte) : htonl (d ++ c ++ b ++ a) = a ++ b ++ c ++ d := by
  obtain ⟨h0, h1, h2, h3⟩ := extract32_append d c b a
  rw [htonl, h0, h1, h2, h3]

/-! ## Sending -/

/-- The sending side of a connection: the bytes on the wire and the number of calls of `send`. -/
structure Sink where
  wire : List Byte
  calls : ℕ

section Send

variable (σ : ℕ → Outcome)

/-- `send`. -/
def send (s : Sink) (buf : List Byte) : Except Errno ℕ × Sink :=
  match σ s.calls with
  | .fail e => (.error e, ⟨s.wire, s.calls + 1⟩)
  | .piece n => (.ok (min n buf.length), ⟨s.wire ++ buf.take n, s.calls + 1⟩)

/-- `psc_sendall`. -/
def sendall (s : Sink) (buf : List Byte) : Except Errno Unit × Sink :=
  if buf = [] then (.ok (), s)
  else
    match send σ s buf with
    | (.error e, s) => (.error e, s)
    | (.ok 0, s) => (.error .enotconn, s)
    | (.ok (n + 1), s) => sendall s (buf.drop (n + 1))
termination_by buf.length
decreasing_by
  have := List.length_pos_iff.mpr ‹¬buf = []›
  simp only [List.length_drop]
  omega

/-- `psc_sendhead`. -/
def sendhead (s : Sink) (msgid : BitVec 16) (msglen : BitVec 32) : Except Errno Unit × Sink :=
  sendall σ s ([0x50, 0x53] ++ store16 (htons msgid) ++ store32 (htonl msglen))

/-- `psc_sendmsg`. -/
def sendmsg (s : Sink) (msgid : BitVec 16) (buf : List Byte) (msglen : BitVec 32) :
    Except Errno Unit × Sink :=
  match sendhead σ s msgid msglen with
  | (.error e, s) => (.error e, s)
  | (.ok _, s) => sendall σ s (buf.take msglen.toNat)

end Send

/-! ## Receiving -/

/-- The receiving side of a connection: the bytes to come and the number of calls of `recv`. -/
structure Source where
  rest : List Byte
  calls : ℕ

/-- What `psc_recvmsg` leaves in its arguments. -/
structure Received where
  msgid : BitVec 16
  buf : List Byte
  msglen : ℕ

section Recv

variable (ρ : ℕ → ℕ → Outcome)

/-- `recv`. The outcome may depend on how many bytes are still to come; once the stream has ended, a
piece is empty. -/
def recv (c : Source) (len : ℕ) : Except Errno (List Byte) × Source :=
  match ρ c.calls c.rest.length with
  | .fail e => (.error e, ⟨c.rest, c.calls + 1⟩)
  | .piece n => (.ok (c.rest.take (min n len)), ⟨c.rest.drop (min n len), c.calls + 1⟩)

/-- `psc_recvall`. -/
def recvall (c : Source) (len : ℕ) : Except Errno (List Byte) × Source :=
  if len = 0 then (.ok [], c)
  else
    match recv ρ c len with
    | (.error e, c) => (.error e, c)
    | (.ok [], c) => (.error .enotconn, c)
    | (.ok (b :: bs), c) =>
      match recvall c (len - (bs.length + 1)) with
      | (.error e, c) => (.error e, c)
      | (.ok more, c) => (.ok (b :: bs ++ more), c)
termination_by len

/-- `psc_recvskip`. Whether the loop ends because 128 bytes or fewer are left or because
`psc_recvall` has failed, what is left is asked for once more. -/
def recvskip (c : Source) (len : ℕ) : Except Errno Unit × Source :=
  if 128 < len then
    match recvall ρ c 128 with
    | (.ok _, c) => recvskip c (len - 128)
    | (.error _, c) => ((recvall ρ c len).1.map fun _ => (), (recvall ρ c len).2)
  else ((recvall ρ c len).1.map fun _ => (), (recvall ρ c len).2)
termination_by len

/-- `psc_recvhead`. -/
def recvhead (c : Source) : Except Errno (BitVec 16 × BitVec 32) × Source :=
  match recvall ρ c 8 with
  | (.error e, c) => (.error e, c)
  | (.ok buf, c) =>
    if buf.getD 0 0 ≠ 0x50 ∨ buf.getD 1 0 ≠ 0x53 then (.error .eio, c)
    else (.ok (htons (load16 buf 2), htonl (load32 buf 4)), c)

/-- `psc_recvmsg`, into a buffer of `maxlen` bytes. -/
def recvmsg (c : Source) (maxlen : ℕ) : Except Errno Received × Source :=
  match recvhead ρ c with
  | (.error e, c) => (.error e, c)
  | (.ok (mid, mlen), c) =>
    let rlen := if maxlen < mlen.toNat then maxlen else mlen.toNat
    match recvall ρ c rlen with
    | (.error e, c) => (.error e, c)
    | (.ok buf, c) =>
      if rlen < mlen.toNat then
        match recvskip ρ c (mlen.toNat - rlen) with
        | (.error e, c) => (.error e, c)
        | (.ok _, c) => (.ok ⟨mid, buf, rlen⟩, c)
      else (.ok ⟨mid, buf, rlen⟩, c)

/-- `n` calls of `psc_recvmsg`, up to the first that fails. -/
def recvmsgs (c : Source) (maxlen : ℕ) : ℕ → Except Errno (List Received) × Source
  | 0 => (.ok [], c)
  | n + 1 =>
    match recvmsgs c maxlen n with
    | (.error e, c) => (.error e, c)
    | (.ok ms, c) =>
      match recvmsg ρ c maxlen with
      | (.error e, c) => (.error e, c)
      | (.ok m, c) => (.ok (ms ++ [m]), c)

end Recv

/-! ## Whole buffers -/

/-- `send` takes a non-empty piece at each call. -/
def SendsPieces (σ : ℕ → Outcome) : Prop := ∀ k, ∃ n, σ k = .piece (n + 1)

/-- `recv` gives a non-empty piece at each call until the stream ends. -/
def RecvsPieces (ρ : ℕ → ℕ → Outcome) : Prop := ∀ k left, 0 < left → ∃ n, ρ k left = .piece (n + 1)

section Loops

variable {σ : ℕ → Outcome} {ρ : ℕ → ℕ → Outcome}

theorem send_eq (hσ : SendsPieces σ) (s : Sink) {buf : List Byte} (hbuf : buf ≠ []) :
    ∃ n, send σ s buf = (.ok (n + 1), ⟨s.wire ++ buf.take (n + 1), s.calls + 1⟩) := by
  obtain ⟨n, hn⟩ := hσ s.calls
  have hpos := List.length_pos_iff.mpr hbuf
  refine ⟨min n (buf.length - 1), ?_⟩
  have hmin : min n (buf.length - 1) + 1 = min (n + 1) buf.length := by omega
  rw [hmin, ← List.take_eq_take_min]
  simp only [send, hn]

/-- `psc_sendall` puts the whole buffer on the wire. -/
theorem sendall_eq (hσ : SendsPieces σ) (s : Sink) (buf : List Byte) :
    ∃ k, sendall σ s buf = (.ok (), ⟨s.wire ++ buf, k⟩) := by
  induction hlen : buf.length using Nat.strong_induction_on generalizing s buf with
  | _ len ih =>
    rw [sendall]
    by_cases hbuf : buf = []
    · exact ⟨s.calls, by rw [if_pos hbuf, hbuf, List.append_nil]⟩
    · obtain ⟨n, hsend⟩ := send_eq hσ s hbuf
      have hpos := List.length_pos_iff.mpr hbuf
      obtain ⟨k, hk⟩ := ih (buf.drop (n + 1)).length (by rw [List.length_drop]; omega)
        ⟨s.wire ++ buf.take (n + 1), s.calls + 1⟩ (buf.drop (n + 1)) rfl
      refine ⟨k, ?_⟩
      rw [if_neg hbuf, hsend]
      simp only [hk, List.append_assoc, List.take_append_drop]

theorem recv_eq (hρ : RecvsPieces ρ) (c : Source) {len : ℕ} (hlen : len ≠ 0) (hc : c.rest ≠ []) :
    ∃ n b bs, n ≤ len ∧ n ≤ c.rest.length ∧ bs.length + 1 = n ∧ c.rest.take n = b :: bs ∧
      recv ρ c len = (.ok (b :: bs), ⟨c.rest.drop n, c.calls + 1⟩) := by
  have hpos := List.length_pos_iff.mpr hc
  obtain ⟨n, hn⟩ := hρ c.calls c.rest.length hpos
  obtain ⟨b, bs, hb⟩ : ∃ b bs, c.rest.take (min (n + 1) len) = b :: bs := by
    refine List.exists_cons_of_length_pos ?_
    rw [List.length_take]
    omega
  have hlen' : bs.length + 1 = min (min (n + 1) len) c.rest.length := by
    rw [← List.length_take, hb, List.length_cons]
  have htake : c.rest.take (bs.length + 1) = b :: bs := by
    rw [hlen', ← List.take_eq_take_min, hb]
  have hdrop : c.rest.drop (bs.length + 1) = c.rest.drop (min (n + 1) len) := by
    rw [hlen']
    rcases Nat.le_total (min (n + 1) len) c.rest.length with h | h
    · rw [Nat.min_eq_left h]
    · rw [Nat.min_eq_right h, List.drop_length, List.drop_eq_nil_of_le h]
  refine ⟨bs.length + 1, b, bs, by omega, by omega, rfl, htake, ?_⟩
  simp only [recv, hn, hb, hdrop]

/-- What a stream holds is received in full. -/
theorem recvall_ok (hρ : RecvsPieces ρ) (c : Source) (len : ℕ) (h : len ≤ c.rest.length) :
    ∃ k, recvall ρ c len = (.ok (c.rest.take len), ⟨c.rest.drop len, k⟩) := by
  induction len using Nat.strong_induction_on generalizing c with
  | _ len ih =>
    rw [recvall]
    by_cases hlen : len = 0
    · exact ⟨c.calls, by simp [hlen]⟩
    · obtain ⟨n, b, bs, hn, hn', hbs, htake, hrecv⟩ :=
        recv_eq hρ c hlen (List.length_pos_iff.mp (by omega))
      obtain ⟨k, hk⟩ := ih (len - n) (by omega) ⟨c.rest.drop n, c.calls + 1⟩
        (by rw [List.length_drop]; omega)
      refine ⟨k, ?_⟩
      rw [if_neg hlen, hrecv]
      simp only [hbs, hk, List.drop_drop, ← htake]
      rw [show n + (len - n) = len by omega, ← List.take_add, show n + (len - n) = len by omega]

/-- A stream that ends before `len` bytes fails `psc_recvall`. -/
theorem recvall_short (hρ : RecvsPieces ρ) (c : Source) (len : ℕ) (h : c.rest.length < len) :
    ∃ e k, recvall ρ c len = (.error e, ⟨[], k⟩) := by
  induction len using Nat.strong_induction_on generalizing c with
  | _ len ih =>
    have hlen : len ≠ 0 := by omega
    rw [recvall, if_neg hlen]
    by_cases hc : c.rest = []
    · -- the stream has ended: the call fails or gives nothing
      unfold recv
      cases ρ c.calls c.rest.length with
      | fail e => exact ⟨e, c.calls + 1, by simp [hc]⟩
      | piece n => exact ⟨.enotconn, c.calls + 1, by simp [hc]⟩
    · obtain ⟨n, b, bs, hn, hn', hbs, htake, hrecv⟩ := recv_eq hρ c hlen hc
      obtain ⟨e, k, hk⟩ := ih (len - n) (by omega) ⟨c.rest.drop n, c.calls + 1⟩
        (by rw [List.length_drop]; omega)
      exact ⟨e, k, by simp only [hrecv, hbs, hk]⟩

/-- `psc_recvskip` discards what it is asked to. -/
theorem recvskip_ok (hρ : RecvsPieces ρ) (c : Source) (len : ℕ) (h : len ≤ c.rest.length) :
    ∃ k, recvskip ρ c len = (.ok (), ⟨c.rest.drop len, k⟩) := by
  induction len using Nat.strong_induction_on generalizing c with
  | _ len ih =>
    rw [recvskip]
    by_cases hlen : 128 < len
    · obtain ⟨k₁, h₁⟩ := recvall_ok hρ c 128 (by omega)
      obtain ⟨k, hk⟩ := ih (len - 128) (by omega) ⟨c.rest.drop 128, k₁⟩
        (by rw [List.length_drop]; omega)
      refine ⟨k, ?_⟩
      rw [if_pos hlen, h₁]
      simp only [hk, List.drop_drop]
      rw [show 128 + (len - 128) = len by omega]
    · obtain ⟨k, hk⟩ := recvall_ok hρ c len h
      exact ⟨k, by rw [if_neg hlen, hk]; rfl⟩

theorem recvskip_short (hρ : RecvsPieces ρ) (c : Source) (len : ℕ) (h : c.rest.length < len) :
    ∃ e k, recvskip ρ c len = (.error e, ⟨[], k⟩) := by
  induction len using Nat.strong_induction_on generalizing c with
  | _ len ih =>
    rw [recvskip]
    by_cases hlen : 128 < len
    · rw [if_pos hlen]
      by_cases hc : 128 ≤ c.rest.length
      · obtain ⟨k₁, h₁⟩ := recvall_ok hρ c 128 hc
        obtain ⟨e, k, hk⟩ := ih (len - 128) (by omega) ⟨c.rest.drop 128, k₁⟩
          (by rw [List.length_drop]; omega)
        exact ⟨e, k, by rw [h₁]; exact hk⟩
      · -- a chunk failed, so nothing is left for the call after the loop
        obtain ⟨e₁, k₁, h₁⟩ := recvall_short hρ c 128 (by omega)
        obtain ⟨e, k, hk⟩ := recvall_short hρ ⟨[], k₁⟩ len (by simp; omega)
        exact ⟨e, k, by rw [h₁]; simp only [hk]; rfl⟩
    · obtain ⟨e, k, hk⟩ := recvall_short hρ c len h
      exact ⟨e, k, by rw [if_neg hlen, hk]; rfl⟩

end Loops

/-! ## Messages -/

/-- A message. -/
structure Msg where
  msgid : BitVec 16
  payload : List Byte

namespace Msg

/-- What is on the wire for a message. -/
def frame (m : Msg) : List Byte :=
  [0x50, 0x53] ++ be16 m.msgid ++ be32 (BitVec.ofNat 32 m.payload.length) ++ m.payload

/-- What a buffer of `maxlen` bytes gets of a message. -/
def received (maxlen : ℕ) (m : Msg) : Received :=
  ⟨m.msgid, m.payload.take maxlen, min m.payload.length maxlen⟩

theorem length_frame (m : Msg) : m.frame.length = 8 + m.payload.length := by
  simp only [frame, be16, be32, List.length_append, List.length_cons, List.length_nil]

end Msg

/-- Messages sent one after another, up to the first that fails. -/
def sendmsgs (σ : ℕ → Outcome) (s : Sink) : List Msg → Except Errno Unit × Sink
  | [] => (.ok (), s)
  | m :: ms =>
    match sendmsg σ s m.msgid m.payload (BitVec.ofNat 32 m.payload.length) with
    | (.error e, s) => (.error e, s)
    | (.ok _, s) => sendmsgs σ s ms

/-- The length that the header at the front of a stream declares. -/
def declared (rest : List Byte) : ℕ := (htonl (load32 rest 4)).toNat

section Messages

variable {σ : ℕ → Outcome} {ρ : ℕ → ℕ → Outcome}

theorem sendmsg_eq (hσ : SendsPieces σ) (s : Sink) (m : Msg) (hm : m.payload.length < 2 ^ 32) :
    ∃ k, sendmsg σ s m.msgid m.payload (BitVec.ofNat 32 m.payload.length) =
      (.ok (), ⟨s.wire ++ m.frame, k⟩) := by
  have hlen : m.payload.take (BitVec.ofNat 32 m.payload.length).toNat = m.payload := by
    rw [BitVec.toNat_ofNat, Nat.mod_eq_of_lt hm, List.take_length]
  obtain ⟨k₁, h₁⟩ := sendall_eq hσ s ([0x50, 0x53] ++ be16 m.msgid ++
    be32 (BitVec.ofNat 32 m.payload.length))
  obtain ⟨k, hk⟩ := sendall_eq hσ ⟨s.wire ++ ([0x50, 0x53] ++ be16 m.msgid ++
    be32 (BitVec.ofNat 32 m.payload.length)), k₁⟩ m.payload
  refine ⟨k, ?_⟩
  rw [sendmsg, sendhead, store16_htons, store32_htonl, h₁]
  simp only [hlen, hk, Msg.frame]
  simp only [List.append_assoc]

theorem sendmsgs_eq (hσ : SendsPieces σ) (s : Sink) (msgs : List Msg)
    (hmsgs : ∀ m ∈ msgs, m.payload.length < 2 ^ 32) :
    ∃ k, sendmsgs σ s msgs = (.ok (), ⟨s.wire ++ msgs.flatMap Msg.frame, k⟩) := by
  induction msgs generalizing s with
  | nil => exact ⟨s.calls, by simp [sendmsgs]⟩
  | cons m ms ih =>
    obtain ⟨k₁, h₁⟩ := sendmsg_eq hσ s m (hmsgs m List.mem_cons_self)
    obtain ⟨k, hk⟩ := ih ⟨s.wire ++ m.frame, k₁⟩ fun m' hm' => hmsgs m' (List.mem_cons_of_mem m hm')
    refine ⟨k, ?_⟩
    rw [sendmsgs, h₁]
    simp only [hk, List.flatMap_cons, List.append_assoc]

theorem recvhead_eq (hρ : RecvsPieces ρ) (c : Source) {p s i₁ i₀ l₃ l₂ l₁ l₀ : Byte}
    {body : List Byte} (hc : c.rest = [p, s, i₁, i₀, l₃, l₂, l₁, l₀] ++ body) :
    ∃ k, recvhead ρ c = (if p ≠ 0x50 ∨ s ≠ 0x53 then .error .eio
      else .ok (i₁ ++ i₀, l₃ ++ l₂ ++ l₁ ++ l₀), ⟨body, k⟩) := by
  obtain ⟨k, hk⟩ := recvall_ok hρ c 8 (by simp [hc])
  refine ⟨k, ?_⟩
  have htake : c.rest.take 8 = [p, s, i₁, i₀, l₃, l₂, l₁, l₀] := by rw [hc]; rfl
  have hdrop : c.rest.drop 8 = body := by rw [hc]; rfl
  have hid : htons (load16 [p, s, i₁, i₀, l₃, l₂, l₁, l₀] 2) = i₁ ++ i₀ := htons_append i₁ i₀
  have hlen : htonl (load32 [p, s, i₁, i₀, l₃, l₂, l₁, l₀] 4) = l₃ ++ l₂ ++ l₁ ++ l₀ :=
    htonl_append l₃ l₂ l₁ l₀
  rw [recvhead, hk, htake, hdrop]
  simp only [hid, hlen, List.getD_cons_zero, List.getD_cons_succ]
  by_cases hps : p ≠ 0x50 ∨ s ≠ 0x53
  · rw [if_pos hps, if_pos hps]
  · rw [if_neg hps, if_neg hps]

theorem exists_head {rest : List Byte} (h : 8 ≤ rest.length) :
    ∃ p s i₁ i₀ l₃ l₂ l₁ l₀ body, rest = [p, s, i₁, i₀, l₃, l₂, l₁, l₀] ++ body := by
  match rest, h with
  | p :: s :: i₁ :: i₀ :: l₃ :: l₂ :: l₁ :: l₀ :: body, _ =>
    exact ⟨p, s, i₁, i₀, l₃, l₂, l₁, l₀, body, rfl⟩

/-- A stream that starts with a header gives its message and is left behind the payload. -/
theorem recvmsg_ok (hρ : RecvsPieces ρ) (c : Source) (maxlen : ℕ) {msgid : BitVec 16}
    {msglen : BitVec 32} {body : List Byte}
    (hc : c.rest = [0x50, 0x53] ++ be16 msgid ++ be32 msglen ++ body)
    (hbody : msglen.toNat ≤ body.length) :
    ∃ k, recvmsg ρ c maxlen = (.ok ⟨msgid, body.take (min msglen.toNat maxlen),
      min msglen.toNat maxlen⟩, ⟨body.drop msglen.toNat, k⟩) := by
  obtain ⟨k₁, h₁⟩ := recvhead_eq hρ c hc
  rw [append_extract16, append_extract32, if_neg (by simp)] at h₁
  have hrlen : (if maxlen < msglen.toNat then maxlen else msglen.toNat) =
      min msglen.toNat maxlen := by
    split_ifs with h <;> omega
  obtain ⟨k₂, h₂⟩ := recvall_ok hρ ⟨body, k₁⟩ (min msglen.toNat maxlen) (by simp; omega)
  rw [recvmsg, h₁]
  simp only [hrlen, h₂]
  by_cases hcut : min msglen.toNat maxlen < msglen.toNat
  · obtain ⟨k, hk⟩ := recvskip_ok hρ ⟨body.drop (min msglen.toNat maxlen), k₂⟩
      (msglen.toNat - min msglen.toNat maxlen) (by simp; omega)
    refine ⟨k, ?_⟩
    rw [if_pos hcut, hk]
    simp only [List.drop_drop]
    rw [show min msglen.toNat maxlen + (msglen.toNat - min msglen.toNat maxlen) = msglen.toNat by
      omega]
  · refine ⟨k₂, ?_⟩
    rw [if_neg hcut, show min msglen.toNat maxlen = msglen.toNat by omega]

/-- `psc_recvmsg` takes a frame from the stream and no byte more. -/
theorem recvmsg_frame (hρ : RecvsPieces ρ) (k₀ : ℕ) (maxlen : ℕ) (m : Msg) (later : List Byte)
    (hm : m.payload.length < 2 ^ 32) :
    ∃ k, recvmsg ρ ⟨m.frame ++ later, k₀⟩ maxlen = (.ok (m.received maxlen), ⟨later, k⟩) := by
  have hlen : (BitVec.ofNat 32 m.payload.length).toNat = m.payload.length := by
    rw [BitVec.toNat_ofNat, Nat.mod_eq_of_lt hm]
  have hrest : m.frame ++ later = [0x50, 0x53] ++ be16 m.msgid ++
      be32 (BitVec.ofNat 32 m.payload.length) ++ (m.payload ++ later) := by
    simp only [Msg.frame, List.append_assoc]
  have hbuf : (m.payload ++ later).take (min m.payload.length maxlen) = m.payload.take maxlen := by
    rw [List.take_append_of_le_length (by omega), Nat.min_comm, ← List.take_eq_take_min]
  obtain ⟨k, hk⟩ := recvmsg_ok hρ ⟨m.frame ++ later, k₀⟩ maxlen hrest
    (by rw [hlen, List.length_append]; omega)
  refine ⟨k, ?_⟩
  rw [hk, hlen, hbuf, List.drop_left]
  rfl

/-- A header that does not start with 'P', 'S' is an error. -/
theorem recvmsg_eio (hρ : RecvsPieces ρ) (c : Source) (maxlen : ℕ) (hc : 8 ≤ c.rest.length)
    (hps : c.rest.take 2 ≠ [0x50, 0x53]) :
    ∃ k, recvmsg ρ c maxlen = (.error .eio, ⟨c.rest.drop 8, k⟩) := by
  obtain ⟨p, s, i₁, i₀, l₃, l₂, l₁, l₀, body, hrest⟩ := exists_head hc
  obtain ⟨k, hk⟩ := recvhead_eq hρ c hrest
  have hne : p ≠ 0x50 ∨ s ≠ 0x53 := by
    by_contra h
    obtain ⟨rfl, rfl⟩ : p = 0x50 ∧ s = 0x53 := by simpa using h
    exact hps (by rw [hrest]; rfl)
  refine ⟨k, ?_⟩
  rw [recvmsg, hk, if_pos hne, hrest]
  rfl

/-- A stream that ends before the payload does is an error. -/
theorem recvmsg_short (hρ : RecvsPieces ρ) (c : Source) (maxlen : ℕ)
    (hc : c.rest.length < 8 + declared c.rest) : ∃ e c', recvmsg ρ c maxlen = (.error e, c') := by
  by_cases h8 : 8 ≤ c.rest.length
  · obtain ⟨p, s, i₁, i₀, l₃, l₂, l₁, l₀, body, hrest⟩ := exists_head h8
    obtain ⟨k₁, h₁⟩ := recvhead_eq hρ c hrest
    by_cases hps : p ≠ 0x50 ∨ s ≠ 0x53
    · exact ⟨.eio, ⟨body, k₁⟩, by rw [recvmsg, h₁, if_pos hps]⟩
    · rw [if_neg hps] at h₁
      generalize hmlen : l₃ ++ l₂ ++ l₁ ++ l₀ = mlen at h₁
      have hbody : body.length < mlen.toNat := by
        have hdecl : declared c.rest = mlen.toNat := by
          rw [hrest, ← hmlen]
          exact congrArg BitVec.toNat (htonl_append l₃ l₂ l₁ l₀)
        rw [hdecl, hrest, List.length_append] at hc
        simpa using hc
      rw [recvmsg, h₁]
      simp only
      by_cases hcut : maxlen < mlen.toNat
      · rw [if_pos hcut]
        by_cases hbuf : maxlen ≤ body.length
        · obtain ⟨k₂, h₂⟩ := recvall_ok hρ ⟨body, k₁⟩ maxlen hbuf
          obtain ⟨e, k, hk⟩ := recvskip_short hρ ⟨body.drop maxlen, k₂⟩ (mlen.toNat - maxlen)
            (by simp; omega)
          exact ⟨e, ⟨[], k⟩, by simp only [h₂, if_pos hcut, hk]⟩
        · obtain ⟨e, k, hk⟩ := recvall_short hρ ⟨body, k₁⟩ maxlen (by simpa using hbuf)
          exact ⟨e, ⟨[], k⟩, by simp only [hk]⟩
      · rw [if_neg hcut]
        obtain ⟨e, k, hk⟩ := recvall_short hρ ⟨body, k₁⟩ mlen.toNat hbody
        exact ⟨e, ⟨[], k⟩, by simp only [hk]⟩
  · obtain ⟨e, k, hk⟩ := recvall_short hρ c 8 (by omega)
    exact ⟨e, ⟨[], k⟩, by rw [recvmsg, recvhead, hk]⟩

theorem be_append (i₁ i₀ l₃ l₂ l₁ l₀ : Byte) :
    be16 (i₁ ++ i₀) = [i₁, i₀] ∧ be32 (l₃ ++ l₂ ++ l₁ ++ l₀) = [l₃, l₂, l₁, l₀] := by
  obtain ⟨h0, h1⟩ := extract16_append i₁ i₀
  obtain ⟨g0, g1, g2, g3⟩ := extract32_append l₃ l₂ l₁ l₀
  rw [be16, be32, h0, h1, g0, g1, g2, g3]
  exact ⟨rfl, rfl⟩

/-- What `psc_recvmsg` accepts is a message. -/
theorem recvmsg_sound (hρ : RecvsPieces ρ) {c c' : Source} {maxlen : ℕ} {r : Received}
    (h : recvmsg ρ c maxlen = (.ok r, c')) :
    ∃ m : Msg, m.payload.length < 2 ^ 32 ∧ c.rest = m.frame ++ c'.rest ∧ r = m.received maxlen := by
  have hlong : 8 + declared c.rest ≤ c.rest.length := by
    by_contra hlt
    obtain ⟨e, c₁, he⟩ := recvmsg_short hρ c maxlen (by omega)
    rw [he] at h
    cases h
  have hps : c.rest.take 2 = [0x50, 0x53] := by
    by_contra hne
    obtain ⟨k, hk⟩ := recvmsg_eio hρ c maxlen (by omega) hne
    rw [hk] at h
    cases h
  obtain ⟨p, s, i₁, i₀, l₃, l₂, l₁, l₀, body, hrest⟩ :=
    exists_head (show 8 ≤ c.rest.length by omega)
  obtain ⟨rfl, rfl⟩ : p = 0x50 ∧ s = 0x53 := by simpa [hrest] using hps
  have hdecl : declared c.rest = (l₃ ++ l₂ ++ l₁ ++ l₀).toNat := by
    rw [hrest]
    exact congrArg BitVec.toNat (htonl_append l₃ l₂ l₁ l₀)
  rw [hdecl] at hlong
  generalize hmlen : l₃ ++ l₂ ++ l₁ ++ l₀ = mlen at hlong
  have hbody : mlen.toNat ≤ body.length := by
    rw [hrest, List.length_append] at hlong
    simpa using hlong
  have hlen : (body.take mlen.toNat).length = mlen.toNat := List.length_take_of_le hbody
  have hframe : c.rest =
      (Msg.mk (i₁ ++ i₀) (body.take mlen.toNat)).frame ++ body.drop mlen.toNat := by
    rw [Msg.frame, hlen, BitVec.ofNat_toNat, BitVec.setWidth_eq, List.append_assoc,
      List.take_append_drop, ← hmlen, (be_append i₁ i₀ l₃ l₂ l₁ l₀).1,
      (be_append i₁ i₀ l₃ l₂ l₁ l₀).2, hrest]
    rfl
  obtain ⟨k, hk⟩ := recvmsg_frame hρ c.calls maxlen ⟨i₁ ++ i₀, body.take mlen.toNat⟩
    (body.drop mlen.toNat) (by rw [hlen]; exact mlen.isLt)
  rw [← hframe] at hk
  obtain ⟨hr, hc'⟩ := Prod.mk.inj (h.symm.trans hk)
  exact ⟨_, by rw [hlen]; exact mlen.isLt, by rw [hc', ← hframe], Except.ok.inj hr⟩

theorem recvmsgs_eq (hρ : RecvsPieces ρ) (k₀ : ℕ) (maxlen : ℕ) (msgs : List Msg)
    (hmsgs : ∀ m ∈ msgs, m.payload.length < 2 ^ 32) (later : List Byte) {j : ℕ}
    (hj : j ≤ msgs.length) :
    ∃ k, recvmsgs ρ ⟨msgs.flatMap Msg.frame ++ later, k₀⟩ maxlen j =
      (.ok ((msgs.take j).map (Msg.received maxlen)),
        ⟨(msgs.drop j).flatMap Msg.frame ++ later, k⟩) := by
  induction j with
  | zero => exact ⟨k₀, rfl⟩
  | succ j ih =>
    obtain ⟨k₁, h₁⟩ := ih (by omega)
    have hdrop : msgs.drop j = msgs[j] :: msgs.drop (j + 1) := List.drop_eq_getElem_cons hj
    obtain ⟨k, hk⟩ := recvmsg_frame hρ k₁ maxlen msgs[j]
      ((msgs.drop (j + 1)).flatMap Msg.frame ++ later) (hmsgs _ (List.getElem_mem hj))
    refine ⟨k, ?_⟩
    rw [recvmsgs, h₁, hdrop, List.flatMap_cons, List.append_assoc]
    simp only [hk]
    rw [List.take_succ_eq_append_getElem hj, List.map_append]
    rfl

/-- **Round trip.** However `send` and `recv` cut the stream, the messages of a list go over the
wire as their frames, and `psc_recvmsg` gets them back one by one, each cut to the buffer, with the
stream left at the next frame. A stream that does not start with 'P', 'S', or that ends inside a
frame, is an error. -/
theorem framing_round_trip (hσ : SendsPieces σ) (hρ : RecvsPieces ρ) (maxlen : ℕ) (msgs : List Msg)
    (hmsgs : ∀ m ∈ msgs, m.payload.length < 2 ^ 32) :
    (∀ s, ∃ k, sendmsgs σ s msgs = (.ok (), ⟨s.wire ++ msgs.flatMap Msg.frame, k⟩)) ∧
    (∀ k₀ later j, j ≤ msgs.length →
      ∃ k, recvmsgs ρ ⟨msgs.flatMap Msg.frame ++ later, k₀⟩ maxlen j =
        (.ok ((msgs.take j).map (Msg.received maxlen)),
          ⟨(msgs.drop j).flatMap Msg.frame ++ later, k⟩)) ∧
    (∀ m ∈ msgs, m.frame.length = 8 + m.payload.length) ∧
    (∀ c, 8 ≤ c.rest.length → c.rest.take 2 ≠ [0x50, 0x53] →
      ∃ c', recvmsg ρ c maxlen = (.error .eio, c')) ∧
    (∀ c, c.rest.length < 8 + declared c.rest → ∃ e c', recvmsg ρ c maxlen = (.error e, c')) := by
  refine ⟨fun s => sendmsgs_eq hσ s msgs hmsgs, ?_, fun m _ => m.length_frame, ?_, ?_⟩
  · intro k₀ later j hj
    exact recvmsgs_eq hρ k₀ maxlen msgs hmsgs later hj
  · intro c hc hps
    obtain ⟨k, hk⟩ := recvmsg_eio hρ c maxlen hc hps
    exact ⟨_, hk⟩
  · intro c hc
    exact recvmsg_short hρ c maxlen hc

/-- Two messages, one of them longer than the buffer of two bytes, through a network that moves a
byte at a time. -/
theorem framing_two_messages :
    ∃ k, recvmsgs (fun _ _ => .piece 1)
        ⟨[0x50, 0x53, 0, 1, 0, 0, 0, 3, 7, 8, 9, 0x50, 0x53, 0, 2, 0, 0, 0, 0], 0⟩ 2 2 =
      (.ok [⟨1, [7, 8], 2⟩, ⟨2, [], 0⟩], ⟨[], k⟩) :=
  (framing_round_trip (σ := fun _ => .piece 1) (ρ := fun _ _ => .piece 1) (fun _ => ⟨0, rfl⟩)
    (fun _ _ _ => ⟨0, rfl⟩) 2 [⟨1, [7, 8, 9]⟩, ⟨2, []⟩] (by decide)).2.1 0 [] 2 (by decide)

end Messages

end Psc.Net
