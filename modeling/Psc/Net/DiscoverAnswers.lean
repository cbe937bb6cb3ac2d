import Mathlib.Data.List.GetD
import Psc.Net.Discover

/-!
# Which datagrams are answered

`disco_recv` copies the front of the datagram to a structure on the stack and decides by that. The
structure has room for a header and four bytes, and the number of bytes copied stands for the size
of the datagram.

1. `discoRecvOn_eq`: what was on the stack before makes no difference.
2. `replies_iff`: a request is answered if its length field says four bytes or fewer.
3. `answers_iff`: so a longer request is taken for a truncated one.
-/

namespace Psc.Net

open RefHeap

/-! ## The copy on the stack -/

/-- `msg`: the bytes that were copied, and what was on the stack behind them. -/
def discoMsg (stack copied : List Byte) : List Byte := copied ++ stack.drop copied.length

/-- `disco_recv`, with the bytes of `stack` where `msg` comes to lie. -/
def discoRecvOn (copy : CopyPartial) (stack : List Byte) (replyBuf : ℕ) (h : Heap (List Byte))
    (p : ℕ) (alloc : Option ℕ) (err : Bool) : DiscoExit × Heap (List Byte) :=
  let n := (copy h p discoMsgSize).length
  let msg := discoMsg stack (copy h p discoMsgSize)
  if n < 8 ∨ msg.getD 0 0 ≠ 0x50 ∨ msg.getD 1 0 ≠ 0x53 then (.invalidHeader, h)
  else if n - 8 < (htonl (load32 msg 4)).toNat then (.truncated, h)
  else if htons (load16 msg 2) ≠ 1234 then (.otherId, h)
  else
    match alloc with
    | none => (.noBuffer, h)
    | some p =>
      let h := h.insert p ⟨1, none, []⟩
      let h := link h p replyBuf
      (.replied err, free h p)

/-- The number of replies that are sent. -/
def DiscoExit.replies : DiscoExit → ℕ
  | .replied false => 1
  | _ => 0

theorem getD_discoMsg {copied : List Byte} {k : ℕ} (stack : List Byte) (hk : k < copied.length) :
    (discoMsg stack copied).getD k 0 = copied.getD k 0 := List.getD_append _ _ _ _ hk

/-- **The stack does not matter.** Only bytes of the header are read, and only if they were
copied. -/
theorem discoRecvOn_eq (copy : CopyPartial) (stack : List Byte) (replyBuf : ℕ)
    (h : Heap (List Byte)) (p : ℕ) (alloc : Option ℕ) (err : Bool) :
    discoRecvOn copy stack replyBuf h p alloc err = discoRecv copy replyBuf h p alloc err := by
  unfold discoRecvOn discoRecv
  dsimp only
  by_cases h8 : (copy h p discoMsgSize).length < 8
  · rw [if_pos (Or.inl h8), if_pos (Or.inl h8)]
  · have hread : ∀ k < 8, (discoMsg stack (copy h p discoMsgSize)).getD k 0 =
        (copy h p discoMsgSize).getD k 0 :=
      fun k hk => getD_discoMsg stack (by omega)
    have hid : load16 (discoMsg stack (copy h p discoMsgSize)) 2 =
        load16 (copy h p discoMsgSize) 2 := by
      unfold load16
      rw [hread 3 (by omega), hread 2 (by omega)]
    have hlen : load32 (discoMsg stack (copy h p discoMsgSize)) 4 =
        load32 (copy h p discoMsgSize) 4 := by
      unfold load32
      rw [hread 7 (by omega), hread 6 (by omega), hread 5 (by omega), hread 4 (by omega)]
    cases alloc with
    | none =>
      dsimp only
      rw [hread 0 (by omega), hread 1 (by omega), hid, hlen]
    | some q =>
      dsimp only
      rw [hread 0 (by omega), hread 1 (by omega), hid, hlen]

/-! ## Requests -/

/-- The bytes of a datagram. -/
def Datagram.bytes (g : Datagram) : List Byte := (g.bufs.map Prod.snd).flatten

/-- A datagram that holds a complete frame with the identifier of a request and `n` bytes behind the
header. -/
def Request (bytes : List Byte) (n : ℕ) : Prop :=
  ∃ m : Msg, m.msgid = 1234 ∧ m.payload.length = n ∧ n < 2 ^ 32 ∧ m.frame <+: bytes

/-- A datagram is answered once if it holds a request, and not at all if it does not, whatever else
is on the heap and on the stack. -/
def AnswersRequests (copy : CopyPartial) (g : Datagram) : Prop :=
  ∀ (stack : List Byte) (replyBuf : ℕ) (h : Heap (List Byte)), Fresh h g →
    let replies := (discoRecvOn copy stack replyBuf (arrive h g) g.p g.alloc g.err).1.replies
    ((∃ n, Request g.bytes n) → replies = 1) ∧ ((¬∃ n, Request g.bytes n) → replies = 0)

section Request

variable {bytes : List Byte} {n : ℕ}

theorem Request.eight_le (h : Request bytes n) : 8 ≤ bytes.length := by
  obtain ⟨m, -, -, -, hframe⟩ := h
  have hlen := hframe.length_le
  rw [Msg.length_frame] at hlen
  omega

/-- A request, read byte by byte. -/
theorem request_iff {p s i₁ i₀ l₃ l₂ l₁ l₀ : Byte} {body : List Byte}
    (hbytes : bytes = [p, s, i₁, i₀, l₃, l₂, l₁, l₀] ++ body) :
    Request bytes n ↔ p = 0x50 ∧ s = 0x53 ∧ i₁ ++ i₀ = (1234 : BitVec 16) ∧
      (l₃ ++ l₂ ++ l₁ ++ l₀).toNat = n ∧ n ≤ body.length := by
  constructor
  · rintro ⟨m, hid, hlen, hn, rest, hrest⟩
    rw [← hrest] at hbytes
    simp only [Msg.frame, be16, be32, hid, List.cons_append, List.nil_append, List.cons.injEq]
      at hbytes
    obtain ⟨rfl, rfl, rfl, rfl, rfl, rfl, rfl, rfl, rfl⟩ := hbytes
    refine ⟨rfl, rfl, append_extract16 _, ?_, ?_⟩
    · rw [append_extract32, BitVec.toNat_ofNat, hlen, Nat.mod_eq_of_lt hn]
    · rw [List.length_append]
      omega
  · rintro ⟨rfl, rfl, hid, hlen, hn⟩
    have hword : BitVec.ofNat 32 n = l₃ ++ l₂ ++ l₁ ++ l₀ := by
      rw [← hlen, BitVec.ofNat_toNat]
      exact BitVec.setWidth_eq _
    refine ⟨⟨1234, body.take n⟩, rfl, List.length_take_of_le hn, ?_, body.drop n, ?_⟩
    · rw [← hlen]
      exact BitVec.isLt _
    · rw [Msg.frame, List.length_take_of_le hn, hword, be32_append, ← hid, be16_append,
        List.append_assoc, List.take_append_drop, hbytes]
      rfl

theorem Request.unique {n' : ℕ} (h : Request bytes n) (h' : Request bytes n') : n = n' := by
  obtain ⟨p, s, i₁, i₀, l₃, l₂, l₁, l₀, body, hbytes⟩ := exists_head h.eight_le
  exact ((request_iff hbytes).mp h).2.2.2.1.symm.trans ((request_iff hbytes).mp h').2.2.2.1

end Request

/-! ## Answers -/

/-- The tests that the bytes copied have to pass. -/
def Accepted (msg : List Byte) : Prop :=
  8 ≤ msg.length ∧ (msg.getD 0 0 = 0x50 ∧ msg.getD 1 0 = 0x53) ∧
    (htonl (load32 msg 4)).toNat ≤ msg.length - 8 ∧ htons (load16 msg 2) = 1234

instance (msg : List Byte) : Decidable (Accepted msg) := inferInstanceAs (Decidable (_ ∧ _))

theorem discoRecv_replies {copy : CopyPartial} (replyBuf : ℕ) (h : Heap (List Byte)) (p q : ℕ)
    {msg : List Byte} (hmsg : copy h p discoMsgSize = msg) :
    (discoRecv copy replyBuf h p (some q) false).1.replies = if Accepted msg then 1 else 0 := by
  unfold discoRecv
  dsimp only
  rw [hmsg]
  by_cases hhead : msg.length < 8 ∨ msg.getD 0 0 ≠ 0x50 ∨ msg.getD 1 0 ≠ 0x53
  · rw [if_pos hhead, if_neg]
    · rfl
    · rintro ⟨h8, ⟨hp, hs⟩, -⟩
      rcases hhead with h | h | h
      · omega
      · exact h hp
      · exact h hs
  · rw [if_neg hhead]
    push Not at hhead
    by_cases hlen : msg.length - 8 < (htonl (load32 msg 4)).toNat
    · rw [if_pos hlen, if_neg fun h : Accepted msg => absurd h.2.2.1 (by omega)]
      rfl
    · by_cases hid : htons (load16 msg 2) = 1234
      · rw [if_neg hlen, if_neg (not_not.mpr hid),
          if_pos (show Accepted msg from ⟨hhead.1, hhead.2, by omega, hid⟩)]
        rfl
      · rw [if_neg hlen, if_pos hid, if_neg fun h : Accepted msg => hid h.2.2.2]
        rfl

/-- The tests on the first twelve bytes let requests with four bytes or fewer pass. -/
theorem accepted_take_iff (bytes : List Byte) :
    Accepted (bytes.take 12) ↔ ∃ n ≤ 4, Request bytes n := by
  unfold Accepted
  by_cases h8 : 8 ≤ bytes.length
  · obtain ⟨p, s, i₁, i₀, l₃, l₂, l₁, l₀, body, hbytes⟩ := exists_head h8
    have hmsg : bytes.take 12 = [p, s, i₁, i₀, l₃, l₂, l₁, l₀] ++ body.take 4 := by
      rw [hbytes]
      rfl
    have hid : htons (load16 (bytes.take 12) 2) = i₁ ++ i₀ := by
      rw [hmsg]
      exact htons_append i₁ i₀
    have hlen : htonl (load32 (bytes.take 12) 4) = l₃ ++ l₂ ++ l₁ ++ l₀ := by
      rw [hmsg]
      exact htonl_append l₃ l₂ l₁ l₀
    have hsize : (bytes.take 12).length = 8 + min 4 body.length := by
      rw [hmsg, List.length_append, List.length_take]
      rfl
    rw [hid, hlen, hsize, hmsg]
    simp only [request_iff hbytes]
    constructor
    · rintro ⟨-, ⟨hp, hs⟩, hle, hid⟩
      exact ⟨_, by omega, hp, hs, hid, rfl, by omega⟩
    · rintro ⟨n, hn, hp, hs, hid, rfl, hbody⟩
      exact ⟨by omega, ⟨hp, hs⟩, by omega, hid⟩
  · constructor
    · rintro ⟨hlen, -⟩
      rw [List.length_take] at hlen
      omega
    · rintro ⟨n, -, hrequest⟩
      exact absurd hrequest.eight_le h8

/-- **What is answered.** A datagram is answered if it holds a request with four bytes or fewer
behind the header. -/
theorem replies_iff {copy : CopyPartial} (hcopy : copy.Lawful) (stack : List Byte) (replyBuf : ℕ)
    {h : Heap (List Byte)} {g : Datagram} (hfresh : Fresh h g) (halloc : g.alloc ≠ none)
    (hsend : g.err = false) :
    ((∃ n ≤ 4, Request g.bytes n) →
      (discoRecvOn copy stack replyBuf (arrive h g) g.p g.alloc g.err).1.replies = 1) ∧
    ((¬∃ n ≤ 4, Request g.bytes n) →
      (discoRecvOn copy stack replyBuf (arrive h g) g.p g.alloc g.err).1.replies = 0) := by
  obtain ⟨q, hq⟩ := Option.ne_none_iff_exists'.mp halloc
  have hmsg : copy (arrive h g) g.p discoMsgSize = g.bytes.take 12 :=
    copy_arrive hcopy hfresh discoMsgSize
  rw [discoRecvOn_eq, hq, hsend, discoRecv_replies replyBuf _ _ q hmsg, ← accepted_take_iff]
  exact ⟨fun hr => if_pos hr, fun hr => if_neg hr⟩

/-- **Discovery requests.** A datagram is answered as it should be, given that the reply can be
allocated and sent, if and only if it does not hold a request with more than four bytes behind the
header. -/
theorem answers_iff (copy : CopyPartial) (hcopy : copy.Lawful) (h : Heap (List Byte))
    (g : Datagram) (hfresh : Fresh h g) (halloc : g.alloc ≠ none) (hsend : g.err = false) :
    AnswersRequests copy g ↔ ∀ n, Request g.bytes n → n ≤ 4 := by
  constructor
  · intro hall n hn
    by_contra hgt
    have hone := (hall [] 0 h hfresh).1 ⟨n, hn⟩
    have hzero := (replies_iff hcopy [] 0 hfresh halloc hsend).2
      (by rintro ⟨m, hm, hm'⟩; exact hgt (hn.unique hm' ▸ hm))
    omega
  · intro hshort stack replyBuf h' hfresh'
    obtain ⟨hyes, hno⟩ := replies_iff hcopy stack replyBuf hfresh' halloc hsend
    constructor
    · rintro ⟨n, hn⟩
      exact hyes ⟨n, hshort n hn, hn⟩
    · intro hnone
      exact hno fun ⟨n, _, hn⟩ => hnone ⟨n, hn⟩

/-- A request without a body. -/
theorem request_answered : Fresh prepared request ∧ AnswersRequests copyFront request := by
  refine ⟨fresh_request,
    (answers_iff copyFront lawful_copyFront prepared request fresh_request (by simp [request])
      rfl).mpr ?_⟩
  intro n hn
  have hhead : request.bytes = [0x50, 0x53, 0x04, 0xd2, 0, 0, 0, 0] ++ [] := by decide
  obtain ⟨-, -, -, -, hle⟩ := (request_iff hhead).mp hn
  exact hle.trans (by decide)

/-- A request with five bytes behind the header, in one buffer. -/
def longRequest : Datagram := { request with payload := Msg.frame ⟨1234, [0, 0, 0, 0, 0]⟩ }

/-- It is complete, and is taken for a truncated one. -/
theorem long_request_not_answered :
    Request longRequest.bytes 5 ∧
      (discoRecvOn copyFront [] 0 (arrive prepared longRequest) 1 (some 2) false).1.replies = 0 ∧
      ¬AnswersRequests copyFront longRequest := by
  have hfresh : Fresh prepared longRequest := fresh_request
  have hrequest : Request longRequest.bytes 5 :=
    ⟨⟨1234, [0, 0, 0, 0, 0]⟩, rfl, rfl, by decide, [], by decide⟩
  have hzero := (replies_iff lawful_copyFront [] 0 hfresh (by simp [longRequest, request]) rfl).2
    (by rintro ⟨n, hn, hn'⟩; exact absurd (hrequest.unique hn') (by omega))
  refine ⟨hrequest, hzero, fun hall => ?_⟩
  have hone := (hall [] 0 prepared hfresh).1 ⟨5, hrequest⟩
  exact absurd (hone.symm.trans hzero) (by decide)

end Psc.Net
