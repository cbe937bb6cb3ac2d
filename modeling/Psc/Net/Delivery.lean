import Psc.Net.Broadcast
import Psc.Net.Framing

/-!
# The client table and the frames

The server of `listener.c` with what its sends put on the wire: `psc_send` and `psc_send_one` under
the lock, to whatever descriptor the slot holds, with any outcome of each call of `send`.

1. In every run, a slot is in use exactly while one connection has it (`Owned`).
2. A message goes out whole, or a front part of it does and the descriptor is closed under the same
   lock (`Message.send_cases`). So what a connection gets are whole frames up to a last one
   (`Delivered`).
-/

namespace Psc.Net

open Transition

/-! ## What a send puts on the wire -/

section Send

variable {σ : ℕ → Outcome}

/-- `psc_sendall` puts out the whole buffer, or fails after a front part of it. -/
theorem sendall_cases (s : Sink) (buf : List Byte) :
    (∃ k, sendall σ s buf = (.ok (), ⟨s.wire ++ buf, k⟩)) ∨
    ∃ e k part, sendall σ s buf = (.error e, ⟨s.wire ++ part, k⟩) ∧ part <+: buf := by
  induction hlen : buf.length using Nat.strong_induction_on generalizing s buf with
  | _ len ih =>
    rw [sendall]
    by_cases hbuf : buf = []
    · exact .inl ⟨s.calls, by rw [if_pos hbuf, hbuf, List.append_nil]⟩
    · rw [if_neg hbuf]
      have hpos := List.length_pos_iff.mpr hbuf
      cases hσ : σ s.calls with
      | fail e =>
        exact .inr ⟨e, s.calls + 1, [], by simp [send, hσ], List.nil_prefix⟩
      | piece n =>
        cases n with
        | zero => exact .inr ⟨.enotconn, s.calls + 1, [], by simp [send, hσ], List.nil_prefix⟩
        | succ n =>
          obtain ⟨j, hj⟩ : ∃ j, min (n + 1) buf.length = j + 1 :=
            ⟨min n (buf.length - 1), by omega⟩
          have htake : buf.take (n + 1) = buf.take (j + 1) := by
            rw [← hj, ← List.take_eq_take_min]
          have hsend : send σ s buf =
              (.ok (j + 1), ⟨s.wire ++ buf.take (j + 1), s.calls + 1⟩) := by
            simp only [send, hσ, hj, htake]
          have hsplit := List.take_append_drop (j + 1) buf
          simp only [hsend]
          rcases ih (buf.drop (j + 1)).length (by rw [List.length_drop]; omega)
            ⟨s.wire ++ buf.take (j + 1), s.calls + 1⟩ (buf.drop (j + 1)) rfl with
            ⟨k, hk⟩ | ⟨e, k, part, hk, hpart⟩
          · exact .inl ⟨k, by rw [hk]; simp only [List.append_assoc, hsplit]⟩
          · refine .inr ⟨e, k, buf.take (j + 1) ++ part, ?_, ?_⟩
            · rw [hk]
              simp only [List.append_assoc]
            · obtain ⟨rest, hrest⟩ := hpart
              exact ⟨rest, by rw [List.append_assoc, hrest, hsplit]⟩

end Send

/-- A message whose length fits the header. -/
structure Message extends Msg where
  fits : payload.length < 2 ^ 32

/-- `psc_sendmsg` on a connection: whether it fails, and what it puts on the wire. -/
def Message.send (m : Message) (σ : ℕ → Outcome) : Bool × List Byte :=
  match sendmsg σ ⟨[], 0⟩ m.msgid m.payload (BitVec.ofNat 32 m.payload.length) with
  | (.ok _, s) => (false, s.wire)
  | (.error _, s) => (true, s.wire)

/-- A message goes out as its frame, or fails after a front part of it. -/
theorem Message.send_cases (m : Message) (σ : ℕ → Outcome) :
    m.send σ = (false, m.frame) ∨ ∃ part, m.send σ = (true, part) ∧ part <+: m.frame := by
  have hlen : m.payload.take (BitVec.ofNat 32 m.payload.length).toNat = m.payload := by
    rw [BitVec.toNat_ofNat, Nat.mod_eq_of_lt m.fits, List.take_length]
  have hhead : [0x50, 0x53] ++ store16 (htons m.msgid) ++
      store32 (htonl (BitVec.ofNat 32 m.payload.length)) ++ m.payload = m.frame := by
    rw [store16_htons, store32_htonl, Msg.frame]
  unfold Message.send sendmsg sendhead
  rcases sendall_cases (σ := σ) ⟨[], 0⟩ ([0x50, 0x53] ++ store16 (htons m.msgid) ++
    store32 (htonl (BitVec.ofNat 32 m.payload.length))) with ⟨k, hk⟩ | ⟨e, k, part, hk, hpart⟩
  · rw [hk]
    simp only [hlen, List.nil_append]
    rcases sendall_cases (σ := σ) ⟨[0x50, 0x53] ++ store16 (htons m.msgid) ++
      store32 (htonl (BitVec.ofNat 32 m.payload.length)), k⟩ m.payload with
      ⟨k', hk'⟩ | ⟨e, k', part, hk', hpart⟩
    · exact .inl (by rw [hk', hhead])
    · refine .inr ⟨_, by rw [hk'], ?_⟩
      rw [← hhead]
      exact (List.prefix_append_right_inj _).mpr hpart
  · refine .inr ⟨part, by rw [hk]; simp only [List.nil_append], ?_⟩
    rw [← hhead]
    exact hpart.trans (List.prefix_append _ _)

/-! ## The server with its wires -/

/-- The server, what it has put on the wire of each connection, and the messages that have been sent
so far, in the order in which their senders took the lock. -/
structure Traffic where
  server : State
  wire : ℕ → List Byte
  log : List Message

namespace Traffic

variable (t : Traffic)

/-- The wire of the owner of a descriptor gets the bytes. -/
def deliver (owner : Option Owner) (bytes : List Byte) : Traffic :=
  match owner with
  | some (.conn c) => { t with wire := Function.update t.wire c (t.wire c ++ bytes) }
  | _ => t

/-- A message to the descriptor in slot `i`, which is closed if that fails. -/
def sendTo (m : Message) (σ : ℕ → Outcome) (i : Fin 4) : Option Traffic :=
  match (t.server.slots i).sock with
  | none => some t
  | some d =>
    if t.server.fds d = none then
      (t.server.sendTo true i).map fun r => { t with server := r.1 }
    else
      (t.server.sendTo (m.send σ).1 i).map fun r =>
        { t.deliver (t.server.fds d) (m.send σ).2 with server := r.1 }

/-- The lock is taken to send a message. -/
def lock (m : Message) : Traffic := { t with log := t.log ++ [m] }

/-- `psc_send_one`. -/
def pscSendOne (m : Message) (σ : ℕ → Outcome) (i : Fin 4) : Option Traffic :=
  (t.lock m).sendTo m σ i

/-- The loop of `psc_send`. -/
def sendAll (m : Message) (σ : Fin 4 → ℕ → Outcome) : Traffic → List (Fin 4) → Option Traffic
  | t, [] => some t
  | t, i :: is =>
    if (t.server.slots i).used then (t.sendTo m (σ i) i).bind fun t => sendAll m σ t is
    else sendAll m σ t is

/-- `psc_send`. -/
def pscSend (m : Message) (σ : Fin 4 → ℕ → Outcome) : Option Traffic :=
  sendAll m σ (t.lock m) (List.finRange 4)

end Traffic

/-- What the tasks do: a step of the accept loop or of a thread that sends nothing, the greeting of
a connection, `psc_send_one` by any task to a client that is registered, and `psc_send`. -/
inductive Traffic.Act where
  | quiet (a : Net.Act)
  | greet (c : ℕ) (m : Message) (σ : ℕ → Outcome)
  | one (i : Fin 4) (m : Message) (σ : ℕ → Outcome)
  | send (m : Message) (σ : Fin 4 → ℕ → Outcome)

/-- The steps that are sends. -/
def Act.sends : Act → Bool
  | .greet _ _ => true
  | .send _ => true
  | _ => false

def Traffic.step (t : Traffic) : Traffic.Act → Option Traffic
  | .quiet a =>
    if a.sends then none else (Net.step t.server a).map fun s => { t with server := s }
  | .greet c m σ =>
    match t.server.conns c with
    | .greeting i sock =>
      (t.pscSendOne m σ i).map fun t => { t with server := t.server.setConn c (.serving i sock) }
    | _ => none
  | .one i m σ => if (t.server.slots i).used then t.pscSendOne m σ i else none
  | .send m σ => t.pscSend m σ

/-- The action of the listener that an action is, without what goes out. -/
inductive Traffic.Act.Erases : Traffic.Act → Net.Act → Prop
  | quiet (a : Net.Act) (ha : a.sends = false) : Erases (.quiet a) a
  | greet (c : ℕ) (m : Message) (σ : ℕ → Outcome) (fails : Bool) :
    Erases (.greet c m σ) (.greet c fails)
  | send (m : Message) (σ : Fin 4 → ℕ → Outcome) (fails : Fin 4 → Bool) :
    Erases (.send m σ) (.send fails)

/-- Before the first connection. -/
structure Traffic.Initial (t : Traffic) : Prop where
  server : Net.Initial t.server
  wire : ∀ c, t.wire c = []
  log : t.log = []

theorem pscSend_congr {s : State} {f g : Fin 4 → Bool} {is : List (Fin 4)}
    (h : ∀ i ∈ is, f i = g i) : pscSend f s is = pscSend g s is := by
  induction is generalizing s with
  | nil => rfl
  | cons i is ih =>
    have hrest : ∀ s', pscSend f s' is = pscSend g s' is :=
      fun s' => ih fun j hj => h j (List.mem_cons_of_mem i hj)
    simp only [pscSend, h i List.mem_cons_self, hrest]

theorem pscSend_update {s : State} {f : Fin 4 → Bool} {i : Fin 4} {b : Bool} {is : List (Fin 4)}
    (h : i ∉ is) : pscSend (Function.update f i b) s is = pscSend f s is :=
  pscSend_congr fun _ hj => Function.update_of_ne (ne_of_mem_of_not_mem hj h) _ _

/-! ## The client table -/

/-- A slot is in use exactly while a connection has it, and it is that one's. -/
structure Owned (s : State) : Prop where
  fresh : ∀ c, s.next ≤ c → s.conns c = .unborn
  used : ∀ i, (s.slots i).used = true → (s.conns (s.slots i).conn).slot = some i
  slot : ∀ c i, (s.conns c).slot = some i → s.Mine c i

section Table

variable {s s' : State}

theorem Owned.same (hs : Owned s) (hfresh : ∀ c, s'.next ≤ c → s'.conns c = .unborn)
    (hconns : ∀ c, (s'.conns c).slot = (s.conns c).slot)
    (hused : ∀ i, (s'.slots i).used = (s.slots i).used)
    (hconn : ∀ i, (s'.slots i).conn = (s.slots i).conn) : Owned s' where
  fresh := hfresh
  used i hi := by
    rw [hconns, hconn]
    exact hs.used i (hused i ▸ hi)
  slot c i hc := by
    rw [hconns] at hc
    obtain ⟨hi, hci⟩ := hs.slot c i hc
    exact ⟨(hused i).trans hi, (hconn i).trans hci⟩

theorem Owned.move (hs : Owned s) (c : ℕ) (st : Status) (hborn : s.conns c ≠ .unborn)
    (hst : st.slot = (s.conns c).slot) (hconns : s'.conns = Function.update s.conns c st)
    (hnext : s'.next = s.next) (hused : ∀ i, (s'.slots i).used = (s.slots i).used)
    (hconn : ∀ i, (s'.slots i).conn = (s.slots i).conn) : Owned s' := by
  refine hs.same (fun c' hc' => ?_) (fun c' => ?_) hused hconn
  · rw [hconns]
    exact fresh_update hs.fresh hborn st c' (hnext ▸ hc')
  · rw [hconns]
    by_cases hc : c' = c
    · rw [hc, Function.update_self, hst]
    · rw [Function.update_of_ne hc]

theorem sendTo_next {fails : Bool} {i : Fin 4} {ev : List Event}
    (h : s.sendTo fails i = some (s', ev)) : s'.next = s.next := by
  rcases sendTo_cases h with ⟨rfl, -⟩ | ⟨d, rfl, -⟩ | ⟨d, rfl, -⟩
  · rfl
  · rfl
  · rfl

theorem owned_sendTo (hs : Owned s) {fails : Bool} {i : Fin 4} {ev : List Event}
    (h : s.sendTo fails i = some (s', ev)) : Owned s' := by
  obtain ⟨hconns, hused, hconn, -⟩ := sendTo_keeps h
  exact hs.same (fun c hc => hconns ▸ hs.fresh c (sendTo_next h ▸ hc))
    (fun c => by rw [hconns]) hused hconn

theorem pscSend_conns {fails : Fin 4 → Bool} {is : List (Fin 4)} {ev : List Event}
    (h : pscSend fails s is = some (s', ev)) : s'.conns = s.conns :=
  (pscSend_invariant (I := fun s₁ => s₁.conns = s.conns) (P := fun _ => True)
    (fun _ _ _ _ h₁ _ hsend => ⟨(sendTo_keeps hsend).1.trans h₁, fun _ _ => trivial⟩) is rfl h).1

theorem owned_pscSend (hs : Owned s) {fails : Fin 4 → Bool} {is : List (Fin 4)} {ev : List Event}
    (h : pscSend fails s is = some (s', ev)) : Owned s' :=
  (pscSend_invariant (I := Owned) (P := fun _ => True)
    (fun _ _ _ _ h₁ _ hsend => ⟨owned_sendTo h₁ hsend, fun _ _ => trivial⟩) is hs h).1

/-- A slot is written on behalf of connection `c`, which has no other: it has it now, or no
longer. -/
theorem Owned.write (hs : Owned s) {c : ℕ} {i : Fin 4} {st : Status} {slot : Slot}
    (hborn : s.conns c ≠ .unborn) (hold : ∀ j, (s.conns c).slot = some j → j = i)
    (hmine : ∀ c', c' ≠ c → ¬s.Mine c' i) (hconn : slot.conn = c)
    (hst : st.slot = if slot.used then some i else none) :
    Owned ((s.setSlot i slot).setConn c st) where
  fresh := fresh_update hs.fresh hborn st
  used := used_setSlot hs.used hold fun hu => ⟨hconn, by rw [hst, if_pos hu]⟩
  slot c' j hc' := by
    have hc' : (Function.update s.conns c st c').slot = some j := hc'
    show (Function.update s.slots i slot j).used = true ∧
      (Function.update s.slots i slot j).conn = c'
    by_cases hcc : c' = c
    · rw [hcc, Function.update_self, hst] at hc'
      split_ifs at hc' with hu
      obtain rfl := Option.some.inj hc'
      rw [Function.update_self, hcc]
      exact ⟨hu, hconn⟩
    · rw [Function.update_of_ne hcc] at hc'
      have hj := hs.slot c' j hc'
      have hji : j ≠ i := by
        rintro rfl
        exact hmine c' hcc hj
      rw [Function.update_of_ne hji]
      exact hj

/-- **The client table through a step.** -/
theorem owned_step {a : Act} (hs : Owned s) (h : step s a = some s') : Owned s' := by
  cases Step.of_step h with
  | accept d hbusy hd =>
    refine hs.same (fresh_accept hs.fresh d) (fun c => ?_) (fun _ => rfl) fun _ => rfl
    show (Function.update s.conns s.next (.accepted d) c).slot = _
    by_cases hc : c = s.next
    · rw [hc, Function.update_self, hs.fresh s.next le_rfl]
      rfl
    · rw [Function.update_of_ne hc]
  | alloc c d i hc hi =>
    exact hs.write (by simp [hc]) (by simp [hc, Status.slot])
      (fun c' _ => not_mine_of_unused hi c') rfl rfl
  | refuse c d hc =>
    exact hs.move c (.refused d) (by simp [hc]) (by simp [hc, Status.slot]) rfl rfl
      (fun _ => rfl) fun _ => rfl
  | drop c d hc =>
    exact hs.move c .ended (by simp [hc]) (by simp [hc, Status.slot]) rfl rfl
      (fun _ => rfl) fun _ => rfl
  | store c d i hc =>
    have hmine := hs.slot c i (by simp [hc, Status.slot])
    exact hs.write (by simp [hc]) (by simp [hc, Status.slot]) (not_mine_of_mine hmine) hmine.2
      (by simp [hmine.1, Status.slot])
  | spawn c i hc =>
    exact hs.move c (.born i) (by simp [hc]) (by simp [hc, Status.slot]) rfl rfl
      (fun _ => rfl) fun _ => rfl
  | copy c i hc =>
    exact hs.move c (.greeting i (s.slots i).sock) (by simp [hc]) (by simp [hc, Status.slot])
      rfl rfl (fun _ => rfl) fun _ => rfl
  | greet c i sock fails s₁ ev hc hsend =>
    obtain ⟨hconns, hused, hconn, -⟩ := sendTo_keeps hsend
    have hmoved : (s₁.setConn c (.serving i sock)).conns =
        Function.update s.conns c (.serving i sock) := by
      rw [← hconns]
      rfl
    exact hs.move c (.serving i sock) (by simp [hc]) (by simp [hc, Status.slot])
      hmoved (show s₁.next = s.next from sendTo_next hsend) hused hconn
  | recv c => exact hs
  | readError c i sock hc =>
    exact hs.move c (.leaving i sock) (by simp [hc]) (by simp [hc, Status.slot]) rfl rfl
      (fun _ => rfl) fun _ => rfl
  | free c i sock hc =>
    have hmine := hs.slot c i (by simp [hc, Status.slot])
    exact hs.write (by simp [hc]) (by simp [hc, Status.slot]) (not_mine_of_mine hmine) rfl rfl
  | close c sock hc =>
    have hkeep : (s.closeSock c sock).conns = s.conns ∧ (s.closeSock c sock).next = s.next ∧
        (s.closeSock c sock).slots = s.slots := by
      cases sock <;> exact ⟨rfl, rfl, rfl⟩
    have hmoved : ((s.closeSock c sock).setConn c .ended).conns =
        Function.update s.conns c .ended := by
      rw [← hkeep.1]
      rfl
    exact hs.move c .ended (by simp [hc]) (by simp [hc, Status.slot]) hmoved hkeep.2.1
      (fun i => congrArg (fun slots => (slots i).used) hkeep.2.2)
      fun i => congrArg (fun slots => (slots i).conn) hkeep.2.2
  | send fails s₁ ev hsend => exact owned_pscSend hs hsend

end Table

/-! ## The wires refine the listener -/

section Wires

variable {t t' : Traffic} {m : Message}

/-- A send to a slot with its wire is one of the listener, and adds to the wire of the owner of an
open descriptor what `psc_sendmsg` puts out. -/
theorem Traffic.sendTo_cases {σ : ℕ → Outcome} {i : Fin 4} (h : t.sendTo m σ i = some t') :
    t'.log = t.log ∧ ∃ fails ev, t.server.sendTo fails i = some (t'.server, ev) ∧
      (t'.wire = t.wire ∨ ∃ d c, (t.server.slots i).sock = some d ∧
        t.server.fds d = some (.conn c) ∧ fails = (m.send σ).1 ∧
        t'.wire = Function.update t.wire c (t.wire c ++ (m.send σ).2)) := by
  unfold Traffic.sendTo at h
  cases hsock : (t.server.slots i).sock with
  | none =>
    simp only [hsock] at h
    cases h
    exact ⟨rfl, false, [], by simp [State.sendTo, hsock], .inl rfl⟩
  | some d =>
    simp only [hsock] at h
    split_ifs at h with hd
    · obtain ⟨⟨s, ev⟩, hsend, rfl⟩ := Option.map_eq_some_iff.mp h
      exact ⟨rfl, true, ev, hsend, .inl rfl⟩
    · obtain ⟨⟨s, ev⟩, hsend, rfl⟩ := Option.map_eq_some_iff.mp h
      cases howner : t.server.fds d with
      | none => exact absurd howner hd
      | some o =>
        cases o with
        | conn c => exact ⟨rfl, _, ev, hsend, .inr ⟨d, c, rfl, howner, rfl, rfl⟩⟩
        | listen => exact ⟨rfl, _, ev, hsend, .inl rfl⟩
        | other => exact ⟨rfl, _, ev, hsend, .inl rfl⟩

theorem Traffic.sendTo_whole {σ : ℕ → Outcome} {i : Fin 4} {d c : ℕ} {bytes : List Byte}
    (hsock : (t.server.slots i).sock = some d) (hd : t.server.fds d = some (.conn c))
    (hsend : m.send σ = (false, bytes)) :
    t.sendTo m σ i = some { t with wire := Function.update t.wire c (t.wire c ++ bytes) } := by
  simp [Traffic.sendTo, hsock, hd, hsend, State.sendTo, Traffic.deliver]

theorem Traffic.sendTo_cut {σ : ℕ → Outcome} {i : Fin 4} {d c : ℕ} {part : List Byte}
    (hsock : (t.server.slots i).sock = some d) (hd : t.server.fds d = some (.conn c))
    (hsend : m.send σ = (true, part)) :
    t.sendTo m σ i = some { t with
      server := (t.server.closeFd (t.server.slots i).conn d).setSlot i
        { t.server.slots i with sock := none }
      wire := Function.update t.wire c (t.wire c ++ part) } := by
  simp [Traffic.sendTo, hsock, hd, hsend, State.sendTo, Traffic.deliver]

theorem Traffic.sendAll_invariant {I : Traffic → Prop} {σ : Fin 4 → ℕ → Outcome}
    (hI : ∀ t i t', I t → t.sendTo m (σ i) i = some t' → I t') (is : List (Fin 4)) (ht : I t)
    (h : Traffic.sendAll m σ t is = some t') : I t' := by
  induction is generalizing t with
  | nil => exact Option.some.inj h ▸ ht
  | cons i is ih =>
    simp only [Traffic.sendAll] at h
    split_ifs at h with hused
    · obtain ⟨t₁, h₁, hrest⟩ := Option.bind_eq_some_iff.mp h
      exact ih (hI t i t₁ ht h₁) hrest
    · exact ih ht h

theorem Traffic.sendAll_refines {σ : Fin 4 → ℕ → Outcome} {is : List (Fin 4)} (his : is.Nodup)
    (h : Traffic.sendAll m σ t is = some t') :
    ∃ fails ev, Net.pscSend fails t.server is = some (t'.server, ev) := by
  induction is generalizing t with
  | nil => exact ⟨fun _ => false, [], by rw [← Option.some.inj h]; rfl⟩
  | cons i is ih =>
    obtain ⟨hi, his⟩ := List.nodup_cons.mp his
    simp only [Traffic.sendAll] at h
    split_ifs at h with hused
    · obtain ⟨t₁, h₁, hrest⟩ := Option.bind_eq_some_iff.mp h
      obtain ⟨-, fail, ev₁, hsend, -⟩ := Traffic.sendTo_cases h₁
      obtain ⟨fails, ev₂, hrest⟩ := ih his hrest
      refine ⟨Function.update fails i fail, ev₁ ++ ev₂, ?_⟩
      simp [Net.pscSend, State.sendIfUsed, hused, hsend, pscSend_update hi, hrest]
    · obtain ⟨fails, ev₂, hrest⟩ := ih his h
      refine ⟨Function.update fails i false, ev₂, ?_⟩
      simp [Net.pscSend, State.sendIfUsed, hused, pscSend_update hi, hrest]

/-- Without the wires, a step is one of the listener, or a send to one client. -/
theorem Traffic.step_refines {a : Traffic.Act} (h : t.step a = some t') :
    (∃ b, a.Erases b ∧ Net.step t.server b = some t'.server) ∨
    ∃ fails i ev, t.server.sendTo fails i = some (t'.server, ev) := by
  cases a with
  | quiet a =>
    simp only [Traffic.step] at h
    split_ifs at h with hsends
    obtain ⟨s, hs, rfl⟩ := Option.map_eq_some_iff.mp h
    exact .inl ⟨a, .quiet a (by simpa using hsends), hs⟩
  | greet c m σ =>
    simp only [Traffic.step] at h
    split at h
    · rename_i i sock hc
      obtain ⟨t₁, h₁, rfl⟩ := Option.map_eq_some_iff.mp h
      obtain ⟨-, fails, ev, hsend, -⟩ := Traffic.sendTo_cases h₁
      refine .inl ⟨.greet c fails, .greet c m σ fails, ?_⟩
      have hsend : t.server.sendTo fails i = some (t₁.server, ev) := hsend
      simp only [Net.step, hc, hsend, Option.map_some]
    · cases h
  | one i m σ =>
    simp only [Traffic.step] at h
    split_ifs at h with hused
    obtain ⟨-, fails, ev, hsend, -⟩ := Traffic.sendTo_cases h
    exact .inr ⟨fails, i, ev, hsend⟩
  | send m σ =>
    obtain ⟨fails, ev, hsend⟩ := Traffic.sendAll_refines (List.nodup_finRange 4) h
    have hsend : Net.pscSend fails t.server (List.finRange 4) = some (t'.server, ev) := hsend
    exact .inl ⟨.send fails, .send m σ fails, by simp only [Net.step, hsend, Option.map_some]⟩

theorem owned_trafficStep {a : Traffic.Act} (ht : Owned t.server) (h : t.step a = some t') :
    Owned t'.server := by
  rcases Traffic.step_refines h with ⟨b, -, hb⟩ | ⟨fails, i, ev, hsend⟩
  · exact owned_step ht hb
  · exact owned_sendTo ht hsend

/-! ## Whole frames -/

/-- The frames of the messages with the given places in the log. -/
def frames (log : List Message) (ks : List ℕ) : List Byte :=
  ks.flatMap fun k => (log[k]?).elim [] fun m => m.frame

/-- The bytes are a front part of frames of the log, in its order; while `whole` holds, they are all
of them. -/
def Framed (log : List Message) (bytes : List Byte) (whole : Prop) : Prop :=
  ∃ ks : List ℕ, ks.Pairwise (· ≤ ·) ∧ (∀ k ∈ ks, k < log.length) ∧ bytes <+: frames log ks ∧
    (whole → bytes = frames log ks)

/-- A connection has one descriptor at most, and gets whole frames as long as that is open. -/
structure Delivered (t : Traffic) : Prop where
  fresh : ∀ d c, t.server.fds d = some (.conn c) → c < t.server.next
  single : ∀ d d' c, t.server.fds d = some (.conn c) → t.server.fds d' = some (.conn c) → d = d'
  blank : ∀ c, t.server.next ≤ c → t.wire c = []
  framed : ∀ c, Framed t.log (t.wire c) (∃ d, t.server.fds d = some (.conn c))

theorem frames_append {log : List Message} {ks : List ℕ} (m : Message)
    (h : ∀ k ∈ ks, k < log.length) : frames (log ++ [m]) ks = frames log ks := by
  unfold frames
  refine List.flatMap_congr fun k hk => ?_
  rw [List.getElem?_append_left (h k hk)]

theorem Framed.log {log : List Message} {bytes : List Byte} {whole : Prop}
    (h : Framed log bytes whole) (m : Message) : Framed (log ++ [m]) bytes whole := by
  obtain ⟨ks, hsort, hlt, hpre, heq⟩ := h
  refine ⟨ks, hsort, fun k hk => ?_, ?_, fun hw => ?_⟩
  · rw [List.length_append]
    exact Nat.lt_add_right _ (hlt k hk)
  · rw [frames_append m hlt]
    exact hpre
  · rw [frames_append m hlt]
    exact heq hw

theorem Framed.mono {log : List Message} {bytes : List Byte} {whole whole' : Prop}
    (h : Framed log bytes whole) (hw : whole' → whole) : Framed log bytes whole' := by
  obtain ⟨ks, hsort, hlt, hpre, heq⟩ := h
  exact ⟨ks, hsort, hlt, hpre, fun h' => heq (hw h')⟩

/-- The last message of the log goes out after whole frames, whole or not. -/
theorem Framed.send {log : List Message} {bytes part : List Byte} {whole : Prop} {m : Message}
    (h : Framed (log ++ [m]) bytes True)
    (hpart : part <+: m.frame) (hwhole : whole → part = m.frame) :
    Framed (log ++ [m]) (bytes ++ part) whole := by
  obtain ⟨ks, hsort, hlt, -, heq⟩ := h
  have hbytes := heq trivial
  have hlast : frames (log ++ [m]) (ks ++ [log.length]) = bytes ++ m.frame := by
    rw [hbytes]
    simp [frames]
  refine ⟨ks ++ [log.length], ?_, fun k hk => ?_, ?_, fun hw => ?_⟩
  · refine List.pairwise_append.mpr ⟨hsort, List.pairwise_singleton _ _, fun k hk j hj => ?_⟩
    have hk := hlt k hk
    rw [List.mem_singleton.mp hj]
    simpa [Nat.lt_succ_iff] using hk
  · rcases List.mem_append.mp hk with hk | hk
    · exact hlt k hk
    · rw [List.mem_singleton.mp hk]
      simp
  · rw [hlast]
    exact (List.prefix_append_right_inj _).mpr hpart
  · rw [hlast, hwhole hw]

theorem Delivered.same (ht : Delivered t) (hlog : t'.log = t.log) (hwire : t'.wire = t.wire)
    (hnext : t'.server.next = t.server.next)
    (hfds : ∀ d c, t'.server.fds d = some (.conn c) → t.server.fds d = some (.conn c)) :
    Delivered t' where
  fresh d c hd := hnext ▸ ht.fresh d c (hfds d c hd)
  single d d' c hd hd' := ht.single d d' c (hfds d c hd) (hfds d' c hd')
  blank c hc := by
    rw [hwire]
    exact ht.blank c (hnext ▸ hc)
  framed c := by
    rw [hlog, hwire]
    exact (ht.framed c).mono fun ⟨d, hd⟩ => ⟨d, hfds d c hd⟩

theorem closeFd_some {s : State} (c : ℕ) {d d' : ℕ} {o : Owner}
    (h : (s.closeFd c d).fds d' = some o) : s.fds d' = some o := by
  have h : Function.update s.fds d none d' = some o := h
  by_cases hd : d' = d
  · rw [hd, Function.update_self] at h
    cases h
  · rwa [Function.update_of_ne hd] at h

theorem sendTo_fds {s s' : State} {fails : Bool} {i : Fin 4} {ev : List Event}
    (h : s.sendTo fails i = some (s', ev)) :
    (∀ d o, s'.fds d = some o → s.fds d = some o) ∧
      ∀ d, fails = true → (s.slots i).sock = some d → s'.fds d = none := by
  rcases sendTo_cases h with ⟨rfl, -, hf, -⟩ | ⟨d, rfl, -, hf, -⟩ | ⟨d, rfl, -, -, hsock⟩
  · exact ⟨fun _ _ h => h, fun _ h => by simp [hf] at h⟩
  · exact ⟨fun _ _ h => h, fun _ h => by simp [hf] at h⟩
  · refine ⟨fun d' o hd' => closeFd_some (s.slots i).conn hd', fun d' _ hd' => ?_⟩
    obtain rfl : d' = d := Option.some.inj (hd'.symm.trans hsock)
    exact Function.update_self ..

/-- A send of the last message of the log. -/
theorem delivered_sendTo {log : List Message} {σ : ℕ → Outcome} {i : Fin 4} (ht : Delivered t)
    (hlog : t.log = log ++ [m]) (h : t.sendTo m σ i = some t') : Delivered t' := by
  obtain ⟨hlog', fails, ev, hsend, hwire | ⟨d, c, hsock, hd, hfails, hwire⟩⟩ :=
    Traffic.sendTo_cases h
  · exact ht.same hlog' hwire (sendTo_next hsend) fun d c => (sendTo_fds hsend).1 d (.conn c)
  · have hnext := sendTo_next hsend
    obtain ⟨hfds, hclosed⟩ := sendTo_fds hsend
    refine ⟨fun d' c' hd' => hnext ▸ ht.fresh d' c' (hfds d' _ hd'),
      fun d₁ d₂ c' h₁ h₂ => ht.single d₁ d₂ c' (hfds d₁ _ h₁) (hfds d₂ _ h₂),
      fun c' hc' => ?_, fun c' => ?_⟩
    · have hne : c' ≠ c := by
        rintro rfl
        have hlt := ht.fresh d c' hd
        omega
      rw [hwire, Function.update_of_ne hne]
      exact ht.blank c' (hnext ▸ hc')
    · rw [hlog', hwire, hlog]
      by_cases hc : c' = c
      · rw [hc, Function.update_self]
        have hopen : Framed (log ++ [m]) (t.wire c) True :=
          hlog ▸ (ht.framed c).mono fun _ => ⟨d, hd⟩
        rcases m.send_cases σ with hok | ⟨part, herr, hpart⟩
        · rw [hok]
          exact hopen.send (List.prefix_refl _) fun _ => rfl
        · rw [herr] at hfails ⊢
          refine hopen.send hpart fun ⟨d', hd'⟩ => ?_
          -- its only descriptor has just been closed
          obtain rfl := ht.single d d' c hd (hfds d' _ hd')
          rw [hclosed d hfails hsock] at hd'
          cases hd'
      · rw [Function.update_of_ne hc, ← hlog]
        exact (ht.framed c').mono fun ⟨d', hd'⟩ => ⟨d', hfds d' _ hd'⟩

/-- A new connection has got nothing yet. -/
theorem delivered_accept (ht : Delivered t) (d : ℕ) :
    Delivered { t with server := t.server.accept d } := by
  have hfds : ∀ d' c, (t.server.accept d).fds d' = some (.conn c) →
      d' = d ∧ c = t.server.next ∨ t.server.fds d' = some (.conn c) := by
    intro d' c hd'
    have hd' : Function.update t.server.fds d (some (.conn t.server.next)) d' = some (.conn c) :=
      hd'
    by_cases hdd : d' = d
    · rw [hdd, Function.update_self] at hd'
      cases hd'
      exact .inl ⟨hdd, rfl⟩
    · exact .inr (by rwa [Function.update_of_ne hdd] at hd')
  refine ⟨fun d' c hd' => ?_, fun d₁ d₂ c h₁ h₂ => ?_, fun c hc => ?_, fun c => ?_⟩
  · show c < t.server.next + 1
    rcases hfds d' c hd' with ⟨-, rfl⟩ | hold
    · exact Nat.lt_succ_self _
    · exact Nat.lt_succ_of_lt (ht.fresh d' c hold)
  · rcases hfds d₁ c h₁ with ⟨rfl, rfl⟩ | hold₁
    · rcases hfds d₂ _ h₂ with ⟨rfl, -⟩ | hold₂
      · rfl
      · exact absurd (ht.fresh d₂ _ hold₂) (lt_irrefl _)
    · rcases hfds d₂ c h₂ with ⟨rfl, rfl⟩ | hold₂
      · exact absurd (ht.fresh d₁ _ hold₁) (lt_irrefl _)
      · exact ht.single d₁ d₂ c hold₁ hold₂
  · exact ht.blank c (Nat.le_of_succ_le hc)
  · by_cases hc : c = t.server.next
    · have hblank : t.wire c = [] := ht.blank c hc.ge
      exact ⟨[], List.Pairwise.nil, by simp, by simp [hblank], fun _ => hblank⟩
    · refine (ht.framed c).mono fun ⟨d', hd'⟩ => ?_
      rcases hfds d' c hd' with ⟨-, rfl⟩ | hold
      · exact absurd rfl hc
      · exact ⟨d', hold⟩

/-- **The wires through a step.** -/
theorem delivered_step {a : Traffic.Act} (ht : Delivered t) (h : t.step a = some t') :
    Delivered t' := by
  have hlock : ∀ m, Delivered (t.lock m) := fun m =>
    ⟨ht.fresh, ht.single, ht.blank, fun c => (ht.framed c).log m⟩
  cases a with
  | quiet a =>
    simp only [Traffic.step] at h
    split_ifs at h with hsends
    obtain ⟨s, hs, rfl⟩ := Option.map_eq_some_iff.mp h
    cases Step.of_step hs with
    | accept d hbusy hd => exact delivered_accept ht d
    | drop c d hc => exact ht.same rfl rfl rfl fun _ _ => closeFd_some c
    | close c sock hc =>
      cases sock with
      | none => exact ht.same rfl rfl rfl fun _ _ h => h
      | some d => exact ht.same rfl rfl rfl fun _ _ => closeFd_some c
    | greet c i sock fails s₁ ev hc hsend => simp [Act.sends] at hsends
    | send fails s₁ ev hsend => simp [Act.sends] at hsends
    | _ => exact ht.same rfl rfl rfl fun _ _ h => h
  | greet c m σ =>
    simp only [Traffic.step] at h
    split at h
    · obtain ⟨t₁, h₁, rfl⟩ := Option.map_eq_some_iff.mp h
      exact (delivered_sendTo (hlock m) rfl h₁).same rfl rfl rfl fun _ _ h => h
    · cases h
  | one i m σ =>
    simp only [Traffic.step] at h
    split_ifs at h with hused
    exact delivered_sendTo (hlock m) rfl h
  | send m σ =>
    have hall := Traffic.sendAll_invariant (I := fun t₁ => Delivered t₁ ∧ t₁.log = t.log ++ [m])
      (fun t₁ i t₂ ht₁ h₁ => ⟨delivered_sendTo ht₁.1 ht₁.2 h₁,
        (Traffic.sendTo_cases h₁).1.trans ht₁.2⟩) (List.finRange 4) ⟨hlock m, rfl⟩ h
    exact hall.1

theorem owned_initial {s : State} (hs : Initial s) : Owned s where
  fresh c _ := hs.conns c
  used i hi := by
    rw [hs.slots] at hi
    cases hi
  slot c i hc := by
    rw [hs.conns] at hc
    cases hc

theorem delivered_initial (ht : Traffic.Initial t) : Delivered t where
  fresh d c hd := absurd hd (ht.server.fds d c)
  single d _ c hd := absurd hd (ht.server.fds d c)
  blank c _ := ht.wire c
  framed c := ⟨[], List.Pairwise.nil, by simp, by simp [ht.wire c], fun _ => ht.wire c⟩

theorem owned_of_reach (h : Reach Traffic.step (fun _ _ => True) Traffic.Initial t) :
    Owned t.server :=
  h.invariant (I := fun t => Owned t.server) (fun _ ht => owned_initial ht.server)
    fun _ _ _ ht _ hstep => owned_trafficStep ht hstep

theorem Owned.card_le {s : State} (hs : Owned s) (cs : Finset ℕ)
    (hcs : ∀ c ∈ cs, (s.conns c).slot ≠ none) : cs.card ≤ 4 := by
  have hmaps : ∀ c ∈ cs, ((s.conns c).slot.getD 0) ∈ (Finset.univ : Finset (Fin 4)) :=
    fun _ _ => Finset.mem_univ _
  refine (Finset.card_le_card_of_injOn _ hmaps fun c hc c' hc' heq => ?_).trans (by simp)
  obtain ⟨i, hi⟩ := Option.ne_none_iff_exists'.mp (hcs c hc)
  obtain ⟨j, hj⟩ := Option.ne_none_iff_exists'.mp (hcs c' hc')
  obtain rfl : i = j := by simpa [hi, hj] using heq
  exact (hs.slot c i hi).2.symm.trans (hs.slot c' i hj).2

theorem slot_update {conns : ℕ → Status} {c c' : ℕ} {st : Status}
    (h : (Function.update conns c st c').slot ≠ (conns c').slot) :
    c' = c ∧ st.slot ≠ (conns c).slot := by
  by_cases hc : c' = c
  · rw [hc, Function.update_self] at h
    exact ⟨hc, h⟩
  · rw [Function.update_of_ne hc] at h
    exact absurd rfl h

/-- A slot is given by `psc_client_alloc` and taken back by the connection's own
`psc_client_free`. -/
theorem slot_changes {s s' : State} {a : Act} (hs : Owned s) (h : step s a = some s') (c' : ℕ)
    (hne : (s'.conns c').slot ≠ (s.conns c').slot) : a = .alloc c' ∨ a = .free c' := by
  have hstay : ∀ {c : ℕ} {st : Status}, st.slot = (s.conns c).slot →
      (Function.update s.conns c st c').slot ≠ (s.conns c').slot → False :=
    fun hst hne => (slot_update hne).2 hst
  cases Step.of_step h with
  | accept d hbusy hd =>
    exact (hstay (by rw [hs.fresh s.next le_rfl]; rfl) hne).elim
  | alloc c d i hc hi => exact .inl (by rw [(slot_update hne).1])
  | refuse c d hc => exact (hstay (by simp [hc, Status.slot]) hne).elim
  | drop c d hc => exact (hstay (by simp [hc, Status.slot]) hne).elim
  | store c d i hc => exact (hstay (by simp [hc, Status.slot]) hne).elim
  | spawn c i hc => exact (hstay (by simp [hc, Status.slot]) hne).elim
  | copy c i hc => exact (hstay (by simp [hc, Status.slot]) hne).elim
  | greet c i sock fails s₁ ev hc hsend =>
    have hne : (Function.update s₁.conns c (.serving i sock) c').slot ≠ (s.conns c').slot := hne
    rw [(sendTo_keeps hsend).1] at hne
    exact (hstay (by simp [hc, Status.slot]) hne).elim
  | recv c => exact absurd rfl hne
  | readError c i sock hc => exact (hstay (by simp [hc, Status.slot]) hne).elim
  | free c i sock hc => exact .inr (by rw [(slot_update hne).1])
  | close c sock hc =>
    have hkeep : (s.closeSock c sock).conns = s.conns := by cases sock <;> rfl
    have hne : (Function.update (s.closeSock c sock).conns c .ended c').slot ≠
      (s.conns c').slot := hne
    rw [hkeep] at hne
    exact (hstay (by simp [hc, Status.slot]) hne).elim
  | send fails s₁ ev hsend => exact absurd (by rw [pscSend_conns hsend]) hne

theorem traffic_slot_changes {a : Traffic.Act} (ht : Owned t.server) (h : t.step a = some t')
    (c : ℕ) (hne : (t'.server.conns c).slot ≠ (t.server.conns c).slot) :
    a = .quiet (.alloc c) ∨ a = .quiet (.free c) := by
  rcases Traffic.step_refines h with ⟨b, herases, hb⟩ | ⟨fails, i, ev, hsend⟩
  · have hown := slot_changes ht hb c hne
    cases herases with
    | quiet b hb => exact hown.imp (congrArg _) (congrArg _)
    | greet c' m σ fails => simp at hown
    | send m σ fails => simp at hown
  · exact absurd (by rw [(sendTo_keeps hsend).1]) hne

/-- **The client table and the frames.** In every run, with any senders and any failures, a slot is
in use exactly while one connection has it, from its `psc_client_alloc` to its own
`psc_client_free`, and four connections at most have one. What each connection gets is a front part
of whole frames, in the order in which the lock was taken. -/
theorem table_and_frames (h : Reach Traffic.step (fun _ _ => True) Traffic.Initial t) :
    (∀ i, (t.server.slots i).used = true ↔ ∃ c, (t.server.conns c).slot = some i) ∧
    (∀ i c c', (t.server.conns c).slot = some i → (t.server.conns c').slot = some i → c = c') ∧
    (∀ cs : Finset ℕ, (∀ c ∈ cs, (t.server.conns c).slot ≠ none) → cs.card ≤ 4) ∧
    (∀ a t' c, t.step a = some t' → (t'.server.conns c).slot ≠ (t.server.conns c).slot →
      a = .quiet (.alloc c) ∨ a = .quiet (.free c)) ∧
    ∀ c, ∃ ks : List ℕ, ks.Pairwise (· ≤ ·) ∧ (∀ k ∈ ks, k < t.log.length) ∧
      t.wire c <+: frames t.log ks := by
  have ho := owned_of_reach h
  have hd : Delivered t :=
    h.invariant (fun _ => delivered_initial) fun _ _ _ ht _ hstep => delivered_step ht hstep
  refine ⟨fun i => ⟨fun hi => ⟨_, ho.used i hi⟩, fun ⟨c, hc⟩ => (ho.slot c i hc).1⟩,
    fun i c c' hc hc' => (ho.slot c i hc).2.symm.trans (ho.slot c' i hc').2, ho.card_le,
    fun a t' c hstep => traffic_slot_changes ho hstep c, fun c => ?_⟩
  obtain ⟨ks, hsort, hlt, hpre, -⟩ := hd.framed c
  exact ⟨ks, hsort, hlt, hpre⟩

end Wires

/-- A client gets a message of two bytes, and of one of three the header and a byte. -/
theorem one_client_cut : ∃ t : Traffic, Reach Traffic.step (fun _ _ => True) Traffic.Initial t ∧
    t.log.map Message.toMsg = [⟨0x100, [1, 2]⟩, ⟨31, [9, 8, 7]⟩] ∧
    t.wire 0 = [0x50, 0x53, 1, 0, 0, 0, 0, 2, 1, 2, 0x50, 0x53, 0, 31, 0, 0, 0, 3, 9] ∧
    ∃ ks : List ℕ, ks.Pairwise (· ≤ ·) ∧ (∀ k ∈ ks, k < t.log.length) ∧
      t.wire 0 <+: frames t.log ks := by
  obtain ⟨m, σ, hm, hwhole⟩ : ∃ (m : Message) (σ : ℕ → Outcome), m.toMsg = ⟨0x100, [1, 2]⟩ ∧
      m.send σ = (false, [0x50, 0x53, 1, 0, 0, 0, 0, 2, 1, 2]) := by
    refine ⟨⟨⟨0x100, [1, 2]⟩, by decide⟩, fun _ => .piece 8, rfl, ?_⟩
    simp [Message.send, sendmsg, sendhead, sendall, send, store16_htons, store32_htonl, be16, be32]
  obtain ⟨m', σ', hm', hcut⟩ : ∃ (m : Message) (σ : ℕ → Outcome), m.toMsg = ⟨31, [9, 8, 7]⟩ ∧
      m.send σ = (true, [0x50, 0x53, 0, 31, 0, 0, 0, 3, 9]) := by
    refine ⟨⟨⟨31, [9, 8, 7]⟩, by decide⟩,
      fun k => if k = 0 then .piece 8 else if k = 1 then .piece 1 else .fail .eio, rfl, ?_⟩
    simp [Message.send, sendmsg, sendhead, sendall, send, store16_htons, store32_htonl, be16, be32]
  obtain ⟨t₁, h₁, hused, hsock, hfd, hlog, hwire⟩ : ∃ t₁ : Traffic,
      runs Traffic.step ⟨listening 3, fun _ => [], []⟩
        [.quiet (.accept 5), .quiet (.alloc 0), .quiet (.store 0)] = some t₁ ∧
      (t₁.server.slots 0).used = true ∧ (t₁.server.slots 0).sock = some 5 ∧
      t₁.server.fds 5 = some (.conn 0) ∧ t₁.log = [] ∧ t₁.wire 0 = [] :=
    ⟨_, rfl, rfl, rfl, rfl, rfl, rfl⟩
  have hinit : Traffic.Initial ⟨listening 3, fun _ => [], []⟩ :=
    ⟨initial_listening 3, fun _ => rfl, rfl⟩
  have hr₁ := reach_of_runs (.start hinit) (fun _ _ _ => trivial) h₁
  obtain ⟨t₂, h₂, hserver, hlog₂, hwire₂⟩ : ∃ t₂, t₁.step (.one 0 m σ) = some t₂ ∧
      t₂.server = t₁.server ∧ t₂.log = [m] ∧
      t₂.wire 0 = [0x50, 0x53, 1, 0, 0, 0, 0, 2, 1, 2] :=
    ⟨_, (if_pos hused).trans (Traffic.sendTo_whole (t := t₁.lock m) hsock hfd hwhole), rfl,
      by simp [Traffic.lock, hlog], by simp [Traffic.lock, hwire]⟩
  rw [← hserver] at hused hsock hfd
  obtain ⟨t₃, h₃, hlog₃, hwire₃⟩ : ∃ t₃, t₂.step (.one 0 m' σ') = some t₃ ∧ t₃.log = [m, m'] ∧
      t₃.wire 0 = [0x50, 0x53, 1, 0, 0, 0, 0, 2, 1, 2, 0x50, 0x53, 0, 31, 0, 0, 0, 3, 9] :=
    ⟨_, (if_pos hused).trans (Traffic.sendTo_cut (t := t₂.lock m') hsock hfd hcut),
      by simp [Traffic.lock, hlog₂], by simp [Traffic.lock, hwire₂]⟩
  have hr₃ := Reach.next _ (Reach.next _ hr₁ trivial h₂) trivial h₃
  exact ⟨t₃, hr₃, by simp [hlog₃, hm, hm'], hwire₃, (table_and_frames hr₃).2.2.2.2 0⟩

end Psc.Net
