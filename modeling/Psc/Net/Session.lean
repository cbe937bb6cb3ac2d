import Psc.Net.ClientMsg

/-!
# A session on a stream

The loop of `handle_client` over the bytes of a connection. The network cuts the stream into pieces
as it likes and the loop has its buffer for one message; what it does depends on the bytes alone.

1. `ends_iff`: no message stands at the front of a stream exactly if it is shorter than its header
says or does not start with 'P', 'S'.
2. `session_of_stream`: every stream is the frames of some messages and such a rest
(`exists_messages`). Each message is served in its turn, and the loop ends at the rest
(`handleClient_eq`).
-/

namespace Psc.Net

open Control

/-- No message stands at the front of the stream. -/
def Ends (rest : List Byte) : Prop :=
  ∀ (m : Msg) (later : List Byte), m.payload.length < 2 ^ 32 → rest ≠ m.frame ++ later

/-- The messages of a list, each as far as it fits into the buffer, in at most `n` passes. -/
def serveAll (fmt : FloatFormat) (stack : ℕ → Bytes) :
    List Msg → Session → ℕ → Except Trap Session
  | m :: ms, s, n + 1 => do
    let s ← serve fmt (stack n) s (m.received rxbufSize)
    serveAll fmt stack ms s n
  | _, s, _ => .ok s

theorem declared_frame (m : Msg) (later : List Byte) (hm : m.payload.length < 2 ^ 32) :
    declared (m.frame ++ later) = m.payload.length := by
  have hload : htonl (load32 (m.frame ++ later) 4) = BitVec.ofNat 32 m.payload.length := by
    refine (htonl_append _ _ _ _).trans ?_
    exact append_extract32 _
  rw [declared, hload, BitVec.toNat_ofNat, Nat.mod_eq_of_lt hm]

/-- A stream ends where it is shorter than its header says, or does not start with 'P', 'S'. -/
theorem ends_iff (rest : List Byte) :
    Ends rest ↔ rest.length < 8 + declared rest ∨ rest.take 2 ≠ [0x50, 0x53] := by
  constructor
  · intro hend
    by_contra hfull
    rw [not_or, not_lt, not_not] at hfull
    obtain ⟨hlong, hps⟩ := hfull
    obtain ⟨p, s, i₁, i₀, l₃, l₂, l₁, l₀, body, rfl⟩ :=
      exists_head (show 8 ≤ rest.length by omega)
    obtain ⟨rfl, rfl⟩ : p = 0x50 ∧ s = 0x53 := by simpa using hps
    have hhead : [0x50, 0x53, i₁, i₀, l₃, l₂, l₁, l₀] ++ body =
        [0x50, 0x53] ++ be16 (i₁ ++ i₀) ++ be32 (l₃ ++ l₂ ++ l₁ ++ l₀) ++ body := by
      rw [(be_append i₁ i₀ l₃ l₂ l₁ l₀).1, (be_append i₁ i₀ l₃ l₂ l₁ l₀).2]
      rfl
    have hdecl : declared ([0x50, 0x53, i₁, i₀, l₃, l₂, l₁, l₀] ++ body) =
        (l₃ ++ l₂ ++ l₁ ++ l₀).toNat := congrArg BitVec.toNat (htonl_append l₃ l₂ l₁ l₀)
    have hbody : (l₃ ++ l₂ ++ l₁ ++ l₀).toNat ≤ body.length := by
      rw [hdecl, List.length_append] at hlong
      simpa using hlong
    -- on any network `psc_recvmsg` would take a frame from the stream
    have hρ : RecvsPieces fun _ _ => .piece 1 := fun _ _ _ => ⟨0, rfl⟩
    obtain ⟨k, hk⟩ := recvmsg_ok hρ ⟨_, 0⟩ 0 hhead hbody
    obtain ⟨m, hm, hframe, -⟩ := recvmsg_sound hρ hk
    exact hend m _ hm hframe
  · rintro hend m later hm rfl
    rcases hend with hshort | hps
    · rw [declared_frame m later hm, List.length_append, m.length_frame] at hshort
      omega
    · exact hps rfl

instance (rest : List Byte) : Decidable (Ends rest) := decidable_of_iff _ (ends_iff rest).symm

/-- A frame that is cut off. -/
example : Ends [0x50, 0x53, 0, 1, 0, 0, 0, 3, 7, 8] := by decide

theorem exists_frame {stream : List Byte} (h : ¬ Ends stream) :
    ∃ (m : Msg) (later : List Byte), m.payload.length < 2 ^ 32 ∧ stream = m.frame ++ later := by
  by_contra hnone
  exact h fun m later hm hstream => hnone ⟨m, later, hm, hstream⟩

/-- Every stream is messages, and a rest that ends. -/
theorem exists_messages (stream : List Byte) :
    ∃ (msgs : List Msg) (rest : List Byte), stream = msgs.flatMap Msg.frame ++ rest ∧
      (∀ m ∈ msgs, m.payload.length < 2 ^ 32) ∧ Ends rest := by
  induction hlen : stream.length using Nat.strong_induction_on generalizing stream with
  | _ len ih =>
    by_cases hend : Ends stream
    · exact ⟨[], stream, rfl, fun m hm => absurd hm List.not_mem_nil, hend⟩
    · obtain ⟨m, later, hm, rfl⟩ := exists_frame hend
      rw [List.length_append, m.length_frame] at hlen
      obtain ⟨msgs, rest, rfl, hmsgs, hrest⟩ := ih later.length (by omega) later rfl
      refine ⟨m :: msgs, rest, by rw [List.flatMap_cons, List.append_assoc], ?_, hrest⟩
      intro m' hm'
      rcases List.mem_cons.mp hm' with rfl | hmem
      · exact hm
      · exact hmsgs m' hmem

section Loop

variable {fmt : FloatFormat} {ρ : ℕ → ℕ → Outcome}

theorem recvmsg_of_ends (hρ : RecvsPieces ρ) {rest : List Byte} (hend : Ends rest)
    (k maxlen : ℕ) : ∃ e c, recvmsg ρ ⟨rest, k⟩ maxlen = (.error e, c) := by
  rcases hrecv : recvmsg ρ ⟨rest, k⟩ maxlen with ⟨e | r, c⟩
  · exact ⟨e, c, rfl⟩
  · obtain ⟨m, hm, hrest, -⟩ := recvmsg_sound hρ hrecv
    exact absurd hrest (hend m c.rest hm)

/-- The loop serves the messages at the front of the stream, and ends behind them. -/
theorem handleClient_eq (hρ : RecvsPieces ρ) (stack : ℕ → Bytes) {rest : List Byte}
    (hend : Ends rest) (msgs : List Msg) (hmsgs : ∀ m ∈ msgs, m.payload.length < 2 ^ 32)
    (k n : ℕ) (s : Session) :
    handleClient fmt ρ stack ⟨msgs.flatMap Msg.frame ++ rest, k⟩ s n =
      serveAll fmt stack msgs s n := by
  induction msgs generalizing k n s with
  | nil =>
    cases n with
    | zero => rfl
    | succ n =>
      obtain ⟨e, c, herror⟩ := recvmsg_of_ends hρ hend k rxbufSize
      rw [handleClient, List.flatMap_nil, List.nil_append, herror]
      rfl
  | cons m ms ih =>
    cases n with
    | zero => rfl
    | succ n =>
      obtain ⟨k', hrecv⟩ := recvmsg_frame hρ k rxbufSize m (ms.flatMap Msg.frame ++ rest)
        (hmsgs m List.mem_cons_self)
      rw [handleClient, List.flatMap_cons, List.append_assoc, hrecv, serveAll]
      dsimp only
      cases serve fmt (stack n) s (m.received rxbufSize) with
      | error e => rfl
      | ok s' => exact ih (fun m' hm' => hmsgs m' (List.mem_cons_of_mem m hm')) k' n s'

end Loop

/-- **A session.** However the stream is cut, its messages are served one after another, and the
loop ends where no message follows. -/
theorem session_of_stream (fmt : FloatFormat) (stream : List Byte) :
    ∃ (msgs : List Msg) (rest : List Byte), stream = msgs.flatMap Msg.frame ++ rest ∧
      (∀ m ∈ msgs, m.payload.length < 2 ^ 32) ∧ Ends rest ∧
        ∀ ρ, RecvsPieces ρ → ∀ stack k s n,
          handleClient fmt ρ stack ⟨stream, k⟩ s n = serveAll fmt stack msgs s n := by
  obtain ⟨msgs, rest, rfl, hmsgs, hend⟩ := exists_messages stream
  exact ⟨msgs, rest, rfl, hmsgs, hend, fun ρ hρ stack k s n =>
    handleClient_eq hρ stack hend msgs hmsgs k n s⟩

end Psc.Net
