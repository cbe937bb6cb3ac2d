import Psc.Lib.RefHeap
import Psc.Net.Framing

/-!
# Discovery

`discover.c`: a request on UDP port 3000 is answered with a header, to which the one reply buffer is
chained. `disco_recv` is handed the datagram with a reference to it, which it does not give back on
any of its five exits.

1. `discoRecv_heap`: a call leaves the heap as it was, with the reply buffer as before and with the
datagram still in use.
2. `released_iff`: so in a run of datagrams each is released only if there is none.
3. `card_heapAfter`: the buffers of all datagrams add up.
-/

namespace Psc.Net

open RefHeap

/-! ## The responder -/

/-- `sizeof(msg)` in `disco_recv`: ten bytes, and two to fill it up. -/
def discoMsgSize : ℕ := 12

/-- `pbuf_copy_partial`, from the first byte. -/
abbrev CopyPartial := Heap (List Byte) → ℕ → ℕ → List Byte

/-- What is documented of it: it copies the first bytes of the chain, as many as asked for. -/
def CopyPartial.Lawful (copy : CopyPartial) : Prop :=
  ∀ h p n, copy h p n = ((chain h p).flatMap fun b => b.2.payload).take n

/-- A function that does so. -/
def copyFront : CopyPartial := fun h p n => ((chain h p).flatMap fun b => b.2.payload).take n

theorem lawful_copyFront : CopyPartial.Lawful copyFront := fun _ _ _ => rfl

/-- The exits of `disco_recv`. -/
inductive DiscoExit where
  | invalidHeader | truncated | otherId | noBuffer | replied (warned : Bool)

/-- `disco_recv`. `pbuf_alloc` returns `alloc`; `udp_sendto` keeps no reference, and fails or not.
-/
def discoRecv (copy : CopyPartial) (replyBuf : ℕ) (h : Heap (List Byte)) (p : ℕ)
    (alloc : Option ℕ) (err : Bool) : DiscoExit × Heap (List Byte) :=
  let msg := copy h p discoMsgSize
  if msg.length < 8 ∨ msg.getD 0 0 ≠ 0x50 ∨ msg.getD 1 0 ≠ 0x53 then (.invalidHeader, h)
  else if msg.length - 8 < (htonl (load32 msg 4)).toNat then (.truncated, h)
  else if htons (load16 msg 2) ≠ 1234 then (.otherId, h)
  else
    match alloc with
    | none => (.noBuffer, h)
    | some p =>
      let h := h.insert p ⟨1, none, []⟩
      let h := link h p replyBuf
      (.replied err, free h p)

/-! ## Runs -/

/-- A datagram in the buffers that it was put into, the first of which is handed over, and how the
two calls of its treatment go. -/
structure Datagram where
  p : ℕ
  payload : List Byte
  more : List (ℕ × List Byte)
  alloc : Option ℕ
  err : Bool

/-- The buffers of a datagram. -/
def Datagram.bufs (g : Datagram) : List (ℕ × List Byte) := (g.p, g.payload) :: g.more

/-- The heap when `disco_recv` is called: the callback owns the reference to the datagram. -/
def arrive (h : Heap (List Byte)) (g : Datagram) : Heap (List Byte) := store h g.bufs

/-- The heap after the call. -/
def answer (copy : CopyPartial) (replyBuf : ℕ) (h : Heap (List Byte)) (g : Datagram) :
    Heap (List Byte) :=
  (discoRecv copy replyBuf (arrive h g) g.p g.alloc g.err).2

/-- What is allocated was not in use. -/
def Fresh (h : Heap (List Byte)) (g : Datagram) : Prop :=
  (g.bufs.map Prod.fst).Nodup ∧ (∀ i ∈ g.bufs.map Prod.fst, i ∉ h) ∧
    ∀ q, g.alloc = some q → q ∉ arrive h g

theorem copy_arrive {copy : CopyPartial} (hcopy : copy.Lawful) {h : Heap (List Byte)}
    {g : Datagram} (hg : Fresh h g) (n : ℕ) :
    copy (arrive h g) g.p n = (g.bufs.map Prod.snd).flatten.take n := by
  unfold arrive
  rw [hcopy, List.flatMap_def, Datagram.bufs, chain_store hg.1 hg.2.1]
  rfl

section Runs

variable (copy : CopyPartial) (replyBuf : ℕ)

/-- The heap after some datagrams. -/
def heapAfter (h : Heap (List Byte)) (gs : List Datagram) : Heap (List Byte) :=
  gs.foldl (answer copy replyBuf) h

/-- Allocation gives what is not in use, all along. -/
def AllFresh : Heap (List Byte) → List Datagram → Prop
  | _, [] => True
  | h, g :: gs => Fresh h g ∧ AllFresh (answer copy replyBuf h g) gs

/-- Each call leaves the count of the reply buffer as it was, and takes one off that of the
datagram. -/
def AllReleased : Heap (List Byte) → List Datagram → Prop
  | _, [] => True
  | h, g :: gs =>
    refs (answer copy replyBuf h g) replyBuf = refs (arrive h g) replyBuf ∧
      refs (answer copy replyBuf h g) g.p + 1 = refs (arrive h g) g.p ∧
      AllReleased (answer copy replyBuf h g) gs

variable {copy replyBuf} {h : Heap (List Byte)}

/-- A call leaves the heap as it was. -/
theorem discoRecv_heap {p : ℕ} {alloc : Option ℕ} (err : Bool) (hreply : 0 < refs h replyBuf)
    (halloc : ∀ q, alloc = some q → q ∉ h) : (discoRecv copy replyBuf h p alloc err).2 = h := by
  unfold discoRecv
  dsimp only
  split_ifs
  · rfl
  · rfl
  · rfl
  · cases alloc with
    | none => rfl
    | some q => exact free_link (halloc q rfl) hreply []

variable {g : Datagram} (hreply : 0 < refs h replyBuf) (hfresh : Fresh h g)

include hreply hfresh

theorem refs_arrive : refs (arrive h g) replyBuf = refs h replyBuf := by
  have hnot : replyBuf ∉ g.bufs.map Prod.fst := by
    intro hmem
    have hnone := Finmap.lookup_eq_none.mpr (hfresh.2.1 replyBuf hmem)
    simp [refs, hnone] at hreply
  unfold refs arrive
  rw [lookup_store hnot]

theorem answer_eq : answer copy replyBuf h g = arrive h g :=
  discoRecv_heap g.err (by rwa [refs_arrive hreply hfresh]) hfresh.2.2

omit hfresh in
theorem refs_heapAfter {gs : List Datagram} (hgs : AllFresh copy replyBuf h gs) :
    refs (heapAfter copy replyBuf h gs) replyBuf = refs h replyBuf := by
  induction gs generalizing h with
  | nil => rfl
  | cons g gs ih =>
    have hsame : refs (answer copy replyBuf h g) replyBuf = refs h replyBuf := by
      rw [answer_eq hreply hgs.1, refs_arrive hreply hgs.1]
    exact (ih (by rwa [hsame]) hgs.2).trans hsame

omit hfresh in
/-- **The leak.** After a run the buffers of all its datagrams are in use. -/
theorem card_heapAfter {gs : List Datagram} (hgs : AllFresh copy replyBuf h gs) :
    (heapAfter copy replyBuf h gs).keys.card =
      h.keys.card + (gs.map fun g => g.bufs.length).sum := by
  induction gs generalizing h with
  | nil => rfl
  | cons g gs ih =>
    have hsame : refs (answer copy replyBuf h g) replyBuf = refs h replyBuf := by
      rw [answer_eq hreply hgs.1, refs_arrive hreply hgs.1]
    have hcard : (answer copy replyBuf h g).keys.card = h.keys.card + g.bufs.length := by
      rw [answer_eq hreply hgs.1]
      exact card_store hgs.1.1 hgs.1.2.1
    rw [List.map_cons, List.sum_cons, ← Nat.add_assoc, ← hcard]
    exact ih (by rwa [hsame]) hgs.2

omit hfresh in
theorem length_le_of_pool {gs : List Datagram} (hgs : AllFresh copy replyBuf h gs) {pool : ℕ}
    (hpool : (heapAfter copy replyBuf h gs).keys.card ≤ pool) :
    gs.length + h.keys.card ≤ pool := by
  have hcard := card_heapAfter hreply hgs
  have hone : ∀ n ∈ gs.map fun g => g.bufs.length, 1 ≤ n := by
    intro n hn
    obtain ⟨g, -, rfl⟩ := List.mem_map.mp hn
    exact Nat.succ_le_succ (Nat.zero_le _)
  have hlen := List.length_le_sum_of_one_le _ hone
  rw [List.length_map] at hlen
  omega

end Runs

/-- **Which runs release every datagram.** In a run with fresh allocations, in which the reply
buffer is in use, each call leaves the count of the reply buffer and releases its datagram once,
exactly if there is no datagram. -/
theorem released_iff (copy : CopyPartial) (replyBuf : ℕ) (h : Heap (List Byte))
    (gs : List Datagram) (hreply : 0 < refs h replyBuf) (hgs : AllFresh copy replyBuf h gs) :
    AllReleased copy replyBuf h gs ↔ gs = [] := by
  cases gs with
  | nil => exact iff_of_true trivial rfl
  | cons g gs =>
    refine iff_of_false ?_ (List.cons_ne_nil g gs)
    rintro ⟨-, honce, -⟩
    rw [answer_eq hreply hgs.1] at honce
    omega

/-- `disco_reply`: a header and a body of eight bytes. -/
def discoReply (gitHash : BitVec 32) : List Byte :=
  [0x50, 0x53] ++ be16 1234 ++ be32 8 ++ be32 gitHash ++ be16 0 ++ [0, 0]

/-- The heap after `discover_prep`, with the reply buffer. -/
def prepared : Heap (List Byte) := Finmap.singleton 0 ⟨1, none, discoReply 0⟩

/-- A request, in one buffer. -/
def request : Datagram where
  p := 1
  payload := [0x50, 0x53] ++ be16 1234 ++ be32 0
  more := []
  alloc := some 2
  err := false

theorem fresh_request : Fresh prepared request := by
  refine ⟨List.nodup_singleton 1, ?_, ?_⟩
  · rintro i hi
    obtain rfl := List.mem_singleton.mp hi
    simp [prepared, request]
  · rintro q hq
    obtain rfl : q = 2 := (Option.some.inj hq).symm
    exact not_mem_store (by decide) (by simp [prepared])

theorem prepared_refs : refs prepared 0 = 1 := by
  unfold refs prepared
  rw [Finmap.lookup_singleton_eq]
  rfl

/-- The request in two buffers, three bytes in the first. -/
def splitRequest : Datagram :=
  { request with payload := [0x50, 0x53, 0x04], more := [(3, [0xD2, 0, 0, 0, 0])] }

theorem fresh_splitRequest : Fresh prepared splitRequest := by
  refine ⟨by decide, ?_, ?_⟩
  · intro i hi
    obtain rfl | rfl : i = 1 ∨ i = 3 := by simpa [Datagram.bufs, splitRequest, request] using hi
    · simp [prepared]
    · simp [prepared]
  · rintro q hq
    obtain rfl : q = 2 := (Option.some.inj hq).symm
    exact not_mem_store (by decide) (by simp [prepared])

/-- It is answered, and is not released. -/
theorem split_not_released :
    (discoRecv copyFront 0 (arrive prepared splitRequest) 1 (some 2) false).1 = .replied false ∧
      ¬AllReleased copyFront 0 prepared [splitRequest] := by
  constructor
  · have hmsg := copy_arrive lawful_copyFront fresh_splitRequest discoMsgSize
    unfold discoRecv
    rw [show copyFront (arrive prepared splitRequest) 1 discoMsgSize = _ from hmsg]
    rfl
  · refine mt (released_iff copyFront 0 prepared _ (by rw [prepared_refs]; exact Nat.one_pos) ?_).mp
      (List.cons_ne_nil _ _)
    exact ⟨fresh_splitRequest, trivial⟩

/-- A request is answered, and its buffer is still in use afterwards. -/
theorem request_not_released :
    0 < refs prepared 0 ∧ AllFresh copyFront 0 prepared [request] ∧
      (discoRecv copyFront 0 (arrive prepared request) 1 (some 2) false).1 = .replied false ∧
      refs (answer copyFront 0 prepared request) 1 = 1 ∧
      ¬AllReleased copyFront 0 prepared [request] := by
  have hpos : 0 < refs prepared 0 := by rw [prepared_refs]; exact Nat.one_pos
  have hrefs : refs (arrive prepared request) 1 = 1 := refs_store_head [] _
  refine ⟨hpos, ⟨fresh_request, trivial⟩, ?_, ?_, ?_⟩
  · have hmsg := copy_arrive lawful_copyFront fresh_request discoMsgSize
    unfold discoRecv
    rw [show copyFront (arrive prepared request) 1 discoMsgSize = _ from hmsg]
    rfl
  · rw [answer_eq hpos fresh_request]
    exact hrefs
  · rintro ⟨-, honce, -⟩
    rw [answer_eq hpos fresh_request] at honce
    omega

end Psc.Net
