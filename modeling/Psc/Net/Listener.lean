import Psc.Lib.Transition

/-!
# Connections

`listener.c`: the accept loop takes a slot for each connection, stores its descriptor there and
starts a thread for it; the thread copies the descriptor, serves the connection until a read fails,
frees the slot and closes its copy. Any task may broadcast to the clients that are registered. A
broadcast that fails to reach a client closes the descriptor in its slot.

A step is what is done under the lock `sendguard` at once, or one access without it: the store of
the descriptor by the accept loop, and the copy by the thread. A descriptor number is free as soon
as it is closed, and `accept` may return any free one.
-/

namespace Psc.Net

open Transition

/-- Whose a descriptor is. -/
inductive Owner where
  | listen
  | conn (c : ℕ)
  | other
  deriving DecidableEq

/-- `struct psc_client`, with its bit of `clients_used`. The descriptor -1 is `none`. The connection
for which the slot was taken is not part of the code's data. -/
structure Slot where
  used : Bool
  sock : Option ℕ
  conn : ℕ
  deriving DecidableEq

/-- Where a connection is: in the accept loop up to `stored`, in its own thread from `born` on.
`sock` is the thread's copy of the descriptor. -/
inductive Status where
  | unborn
  /-- returned by `accept` -/
  | accepted (d : ℕ)
  /-- there was no slot for it -/
  | refused (d : ℕ)
  /-- after `psc_client_alloc` -/
  | allocated (d : ℕ) (i : Fin 4)
  /-- after `C->sock = client` -/
  | stored (i : Fin 4)
  /-- after `sys_thread_new` -/
  | born (i : Fin 4)
  /-- after `int sock = C->sock` -/
  | greeting (i : Fin 4) (sock : Option ℕ)
  /-- in the loop of `handle_client` -/
  | serving (i : Fin 4) (sock : Option ℕ)
  /-- after a read error -/
  | leaving (i : Fin 4) (sock : Option ℕ)
  /-- after `psc_client_free` -/
  | freed (sock : Option ℕ)
  | ended
  deriving DecidableEq

/-- A close: on behalf of which connection, of which descriptor, and whose that was. -/
structure Close where
  conn : ℕ
  fd : ℕ
  owner : Option Owner
  deriving DecidableEq

/-- The state of the server. `busy` is the connection that the accept loop is dealing with, `next`
the number of the next one, `closes` what has been closed so far. -/
structure State where
  fds : ℕ → Option Owner
  slots : Fin 4 → Slot
  conns : ℕ → Status
  busy : Option ℕ
  next : ℕ
  closes : List Close

/-- What a broadcast does to a descriptor, and whose that is. -/
structure Event where
  closes : Bool
  slot : Fin 4
  fd : ℕ
  owner : Option Owner
  deriving DecidableEq

/-! ## The steps -/

namespace State

variable (s : State)

/-- `close`, on behalf of connection `c`. -/
def closeFd (c d : ℕ) : State :=
  { s with fds := Function.update s.fds d none, closes := s.closes ++ [⟨c, d, s.fds d⟩] }

/-- `close` of a descriptor that may be -1. -/
def closeSock (c : ℕ) (sock : Option ℕ) : State := sock.elim s (s.closeFd c)

def setSlot (i : Fin 4) (slot : Slot) : State := { s with slots := Function.update s.slots i slot }

def setConn (c : ℕ) (st : Status) : State := { s with conns := Function.update s.conns c st }

/-- `accept` returns `d`: a new connection, which the accept loop deals with. -/
def accept (d : ℕ) : State :=
  { s with
    fds := Function.update s.fds d (some (.conn s.next))
    conns := Function.update s.conns s.next (.accepted d)
    busy := some s.next
    next := s.next + 1 }

/-- The first free slot. -/
def freeSlot : Option (Fin 4) := (List.finRange 4).find? fun i => !(s.slots i).used

/-- The body of `psc_send` for one client, and of `psc_send_one`: `fails` says that a message was
sent and that it failed. A message to a descriptor that is not open does fail. -/
def sendTo (fails : Bool) (i : Fin 4) : Option (State × List Event) :=
  match (s.slots i).sock with
  | none => if fails then none else some (s, [])
  | some d =>
    if fails then
      some ((s.closeFd (s.slots i).conn d).setSlot i { s.slots i with sock := none },
        [⟨false, i, d, s.fds d⟩, ⟨true, i, d, s.fds d⟩])
    else if s.fds d = none then none
    else some (s, [⟨false, i, d, s.fds d⟩])

/-- The test of `clients_used` in `psc_send`. -/
def sendIfUsed (fails : Bool) (i : Fin 4) : Option (State × List Event) :=
  if (s.slots i).used then s.sendTo fails i
  else if fails then none else some (s, [])

end State

/-- `psc_send` from slot to slot: the state after it, and what it did to descriptors. -/
def pscSend (fails : Fin 4 → Bool) : State → List (Fin 4) → Option (State × List Event)
  | s, [] => some (s, [])
  | s, i :: is => do
    let (s, ev) ← s.sendIfUsed (fails i) i
    let (s, ev') ← pscSend fails s is
    return (s, ev ++ ev')

/-- The actions: of the accept loop, of the thread of a connection, and a broadcast. -/
inductive Act where
  | accept (d : ℕ)
  | alloc (c : ℕ)
  | drop (c : ℕ)
  | store (c : ℕ)
  | spawn (c : ℕ)
  | copy (c : ℕ)
  | greet (c : ℕ) (fails : Bool)
  | recv (c : ℕ) (ok : Bool)
  | free (c : ℕ)
  | close (c : ℕ)
  | send (fails : Fin 4 → Bool)

/-- One step. -/
def step (s : State) : Act → Option State
  | .accept d =>
    if s.busy = none ∧ s.fds d = none then some (s.accept d) else none
  | .alloc c =>
    match s.conns c with
    | .accepted d =>
      match s.freeSlot with
      | some i => some ((s.setSlot i ⟨true, some 0, c⟩).setConn c (.allocated d i))
      | none => some (s.setConn c (.refused d))
    | _ => none
  | .drop c =>
    match s.conns c with
    | .refused d => some { (s.closeFd c d).setConn c .ended with busy := none }
    | _ => none
  | .store c =>
    match s.conns c with
    | .allocated d i => some ((s.setSlot i { s.slots i with sock := some d }).setConn c (.stored i))
    | _ => none
  | .spawn c =>
    match s.conns c with
    | .stored i => some { s.setConn c (.born i) with busy := none }
    | _ => none
  | .copy c =>
    match s.conns c with
    | .born i => some (s.setConn c (.greeting i (s.slots i).sock))
    | _ => none
  | .greet c fails =>
    match s.conns c with
    | .greeting i sock => (s.sendTo fails i).map fun r => r.1.setConn c (.serving i sock)
    | _ => none
  | .recv c ok =>
    match s.conns c with
    | .serving i sock =>
      if ok then if (sock.bind s.fds).isSome then some s else none
      else some (s.setConn c (.leaving i sock))
    | _ => none
  | .free c =>
    match s.conns c with
    | .leaving i sock => some ((s.setSlot i ⟨false, some 0, c⟩).setConn c (.freed sock))
    | _ => none
  | .close c =>
    match s.conns c with
    | .freed sock => some ((s.closeSock c sock).setConn c .ended)
    | _ => none
  | .send fails => (pscSend fails s (List.finRange 4)).map Prod.fst

/-- Before the first connection. Descriptors may belong to the listening socket and to others. -/
structure Initial (s : State) : Prop where
  fds : ∀ d c, s.fds d ≠ some (.conn c)
  slots : ∀ i, (s.slots i).used = false
  conns : ∀ c, s.conns c = .unborn
  busy : s.busy = none
  closes : s.closes = []

/-! ## What a step can do -/

/-- The steps, with what they need and what they leave. -/
inductive Step (s : State) : Act → State → Prop
  | accept (d : ℕ) (hbusy : s.busy = none) (hd : s.fds d = none) :
    Step s (.accept d) (s.accept d)
  | alloc (c d : ℕ) (i : Fin 4) (hc : s.conns c = .accepted d) (hi : (s.slots i).used = false) :
    Step s (.alloc c) ((s.setSlot i ⟨true, some 0, c⟩).setConn c (.allocated d i))
  | refuse (c d : ℕ) (hc : s.conns c = .accepted d) : Step s (.alloc c) (s.setConn c (.refused d))
  | drop (c d : ℕ) (hc : s.conns c = .refused d) :
    Step s (.drop c) { (s.closeFd c d).setConn c .ended with busy := none }
  | store (c d : ℕ) (i : Fin 4) (hc : s.conns c = .allocated d i) :
    Step s (.store c) ((s.setSlot i { s.slots i with sock := some d }).setConn c (.stored i))
  | spawn (c : ℕ) (i : Fin 4) (hc : s.conns c = .stored i) :
    Step s (.spawn c) { s.setConn c (.born i) with busy := none }
  | copy (c : ℕ) (i : Fin 4) (hc : s.conns c = .born i) :
    Step s (.copy c) (s.setConn c (.greeting i (s.slots i).sock))
  | greet (c : ℕ) (i : Fin 4) (sock : Option ℕ) (fails : Bool) (s₁ : State) (ev : List Event)
      (hc : s.conns c = .greeting i sock) (hsend : s.sendTo fails i = some (s₁, ev)) :
    Step s (.greet c fails) (s₁.setConn c (.serving i sock))
  | recv (c : ℕ) : Step s (.recv c true) s
  | readError (c : ℕ) (i : Fin 4) (sock : Option ℕ) (hc : s.conns c = .serving i sock) :
    Step s (.recv c false) (s.setConn c (.leaving i sock))
  | free (c : ℕ) (i : Fin 4) (sock : Option ℕ) (hc : s.conns c = .leaving i sock) :
    Step s (.free c) ((s.setSlot i ⟨false, some 0, c⟩).setConn c (.freed sock))
  | close (c : ℕ) (sock : Option ℕ) (hc : s.conns c = .freed sock) :
    Step s (.close c) ((s.closeSock c sock).setConn c .ended)
  | send (fails : Fin 4 → Bool) (s₁ : State) (ev : List Event)
      (hsend : pscSend fails s (List.finRange 4) = some (s₁, ev)) : Step s (.send fails) s₁

theorem Step.of_step {s s' : State} {a : Act} (h : step s a = some s') : Step s a s' := by
  cases a with
  | accept d =>
    simp only [step] at h
    split_ifs at h with hg
    exact Option.some.inj h ▸ .accept d hg.1 hg.2
  | alloc c =>
    simp only [step] at h
    split at h
    · rename_i d hc
      cases hfree : s.freeSlot with
      | none =>
        rw [hfree] at h
        exact Option.some.inj h ▸ .refuse c d hc
      | some i =>
        rw [hfree] at h
        have hi : (s.slots i).used = false := by simpa using List.find?_some hfree
        exact Option.some.inj h ▸ .alloc c d i hc hi
    · cases h
  | drop c =>
    simp only [step] at h
    split at h
    · exact Option.some.inj h ▸ .drop c _ ‹_›
    · cases h
  | store c =>
    simp only [step] at h
    split at h
    · exact Option.some.inj h ▸ .store c _ _ ‹_›
    · cases h
  | spawn c =>
    simp only [step] at h
    split at h
    · exact Option.some.inj h ▸ .spawn c _ ‹_›
    · cases h
  | copy c =>
    simp only [step] at h
    split at h
    · exact Option.some.inj h ▸ .copy c _ ‹_›
    · cases h
  | greet c fails =>
    simp only [step] at h
    split at h
    · obtain ⟨⟨s₁, ev⟩, hsend, rfl⟩ := Option.map_eq_some_iff.mp h
      exact .greet c _ _ fails s₁ ev ‹_› hsend
    · cases h
  | recv c ok =>
    simp only [step] at h
    split at h
    · cases ok with
      | true =>
        simp only [if_true] at h
        split_ifs at h
        exact Option.some.inj h ▸ .recv c
      | false => exact Option.some.inj h ▸ .readError c _ _ ‹_›
    · cases h
  | free c =>
    simp only [step] at h
    split at h
    · exact Option.some.inj h ▸ .free c _ _ ‹_›
    · cases h
  | close c =>
    simp only [step] at h
    split at h
    · exact Option.some.inj h ▸ .close c _ ‹_›
    · cases h
  | send fails =>
    obtain ⟨⟨s₁, ev⟩, hsend, rfl⟩ := Option.map_eq_some_iff.mp h
    exact .send fails s₁ ev hsend

/-- What a send to a slot can do. -/
theorem sendTo_cases {s s' : State} {fails : Bool} {i : Fin 4} {ev : List Event}
    (h : s.sendTo fails i = some (s', ev)) :
    (s' = s ∧ ev = [] ∧ fails = false ∧ (s.slots i).sock = none) ∨
    (∃ d, s' = s ∧ ev = [⟨false, i, d, s.fds d⟩] ∧ fails = false ∧ (s.slots i).sock = some d) ∨
    (∃ d, s' = (s.closeFd (s.slots i).conn d).setSlot i { s.slots i with sock := none } ∧
      ev = [⟨false, i, d, s.fds d⟩, ⟨true, i, d, s.fds d⟩] ∧ fails = true ∧
      (s.slots i).sock = some d) := by
  unfold State.sendTo at h
  cases hsock : (s.slots i).sock with
  | none =>
    simp only [hsock] at h
    split_ifs at h with hf
    obtain ⟨rfl, rfl⟩ := Prod.mk.inj (Option.some.inj h)
    exact .inl ⟨rfl, rfl, by simpa using hf, rfl⟩
  | some d =>
    simp only [hsock] at h
    split_ifs at h with hf
    · obtain ⟨rfl, rfl⟩ := Prod.mk.inj (Option.some.inj h)
      exact .inr (.inr ⟨d, rfl, rfl, hf, rfl⟩)
    · obtain ⟨rfl, rfl⟩ := Prod.mk.inj (Option.some.inj h)
      exact .inr (.inl ⟨d, rfl, rfl, by simpa using hf, rfl⟩)

/-- What is not changed by a send: which slots are used, by which connections, and where these are.
-/
theorem sendTo_keeps {s s' : State} {fails : Bool} {i : Fin 4} {ev : List Event}
    (h : s.sendTo fails i = some (s', ev)) :
    s'.conns = s.conns ∧ (∀ j, (s'.slots j).used = (s.slots j).used) ∧
      (∀ j, (s'.slots j).conn = (s.slots j).conn) ∧ ∀ j ≠ i, s'.slots j = s.slots j := by
  rcases sendTo_cases h with ⟨rfl, -⟩ | ⟨d, rfl, -⟩ | ⟨d, rfl, -⟩
  · exact ⟨rfl, fun _ => rfl, fun _ => rfl, fun _ _ => rfl⟩
  · exact ⟨rfl, fun _ => rfl, fun _ => rfl, fun _ _ => rfl⟩
  · have hother : ∀ j ≠ i, ((s.closeFd (s.slots i).conn d).setSlot i
        { s.slots i with sock := none }).slots j = s.slots j :=
      fun j hj => Function.update_of_ne hj _ _
    have hself : ((s.closeFd (s.slots i).conn d).setSlot i
        { s.slots i with sock := none }).slots i = { s.slots i with sock := none } :=
      Function.update_self ..
    refine ⟨rfl, fun j => ?_, fun j => ?_, hother⟩
    · by_cases hj : j = i
      · rw [hj, hself]
      · rw [hother j hj]
    · by_cases hj : j = i
      · rw [hj, hself]
      · rw [hother j hj]

theorem sendIfUsed_cases {s s' : State} {fails : Bool} {i : Fin 4} {ev : List Event}
    (h : s.sendIfUsed fails i = some (s', ev)) :
    ((s.slots i).used = true ∧ s.sendTo fails i = some (s', ev)) ∨
    ((s.slots i).used = false ∧ s' = s ∧ ev = []) := by
  unfold State.sendIfUsed at h
  split_ifs at h with hused
  · exact .inl ⟨hused, h⟩
  · obtain ⟨rfl, rfl⟩ := Prod.mk.inj (Option.some.inj h)
    exact .inr ⟨by simpa using hused, rfl, rfl⟩

theorem pscSend_cons {fails : Fin 4 → Bool} {s s' : State} {i : Fin 4} {is : List (Fin 4)}
    {ev : List Event} (h : pscSend fails s (i :: is) = some (s', ev)) :
    ∃ s₁ ev₁ ev₂, s.sendIfUsed (fails i) i = some (s₁, ev₁) ∧
      pscSend fails s₁ is = some (s', ev₂) ∧ ev = ev₁ ++ ev₂ := by
  rw [pscSend] at h
  obtain ⟨⟨s₁, ev₁⟩, h₁, hrest⟩ := Option.bind_eq_some_iff.mp h
  obtain ⟨⟨s₂, ev₂⟩, h₂, hret⟩ := Option.bind_eq_some_iff.mp hrest
  obtain ⟨rfl, rfl⟩ := Prod.mk.inj (Option.some.inj hret)
  exact ⟨s₁, ev₁, ev₂, h₁, h₂, rfl⟩

/-- What each send of a broadcast preserves, the broadcast preserves, and what each does to
descriptors, it does. -/
theorem pscSend_invariant {I : State → Prop} {P : Event → Prop} {fails : Fin 4 → Bool}
    (hI : ∀ s i s' ev, I s → (s.slots i).used = true → s.sendTo (fails i) i = some (s', ev) →
      I s' ∧ ∀ e ∈ ev, P e)
    (is : List (Fin 4)) {s s' : State} {ev : List Event} (hs : I s)
    (h : pscSend fails s is = some (s', ev)) : I s' ∧ ∀ e ∈ ev, P e := by
  induction is generalizing s ev with
  | nil =>
    obtain ⟨rfl, rfl⟩ := Prod.mk.inj (Option.some.inj h)
    exact ⟨hs, fun e he => by cases he⟩
  | cons i is ih =>
    obtain ⟨s₁, ev₁, ev₂, h₁, h₂, rfl⟩ := pscSend_cons h
    have hfirst : I s₁ ∧ ∀ e ∈ ev₁, P e := by
      rcases sendIfUsed_cases h₁ with ⟨hused, h₁⟩ | ⟨-, rfl, rfl⟩
      · exact hI s i s₁ ev₁ hs hused h₁
      · exact ⟨hs, fun e he => by cases he⟩
    have hrest := ih hfirst.1 h₂
    refine ⟨hrest.1, fun e he => ?_⟩
    rcases List.mem_append.mp he with he | he
    · exact hfirst.2 e he
    · exact hrest.2 e he

/-! ## What a step leaves alone -/

namespace State

variable (s : State)

/-- The number of closes on behalf of a connection. -/
def closedBy (c : ℕ) : ℕ := s.closes.countP fun k => k.conn = c

/-- Slot `i` is registered for connection `c`. -/
def Mine (c : ℕ) (i : Fin 4) : Prop := (s.slots i).used = true ∧ (s.slots i).conn = c

end State

/-- A step on behalf of connection `c` leaves the descriptors, the slots and the closes of the
others alone. -/
structure Frame (c : ℕ) (s s' : State) : Prop where
  fds : ∀ d c', c' ≠ c → s.fds d = some (.conn c') → s'.fds d = some (.conn c')
  slots : ∀ i c', c' ≠ c → s.Mine c' i → s'.slots i = s.slots i
  closes : ∀ c', c' ≠ c → s'.closedBy c' = s.closedBy c'

section Frame

variable {s s' : State} {c : ℕ}

theorem Frame.mine (h : Frame c s s') {c' : ℕ} (hc : c' ≠ c) {i : Fin 4} (hi : s.Mine c' i) :
    s'.Mine c' i := by
  unfold State.Mine
  rw [h.slots i c' hc hi]
  exact hi

theorem Frame.refl (c : ℕ) (s : State) : Frame c s s :=
  ⟨fun _ _ _ h => h, fun _ _ _ _ => rfl, fun _ _ => rfl⟩

theorem Frame.trans {s'' : State} (h : Frame c s s') (h' : Frame c s' s'') : Frame c s s'' where
  fds d c' hc hd := h'.fds d c' hc (h.fds d c' hc hd)
  slots i c' hc hi := (h'.slots i c' hc (h.mine hc hi)).trans (h.slots i c' hc hi)
  closes c' hc := (h'.closes c' hc).trans (h.closes c' hc)

theorem frame_closeFd {d : ℕ} (hd : s.fds d = some (.conn c) ∨ s.fds d = none) :
    Frame c s (s.closeFd c d) where
  fds d' c' hc hd' := by
    have hne : d' ≠ d := by
      rintro rfl
      rcases hd with hd | hd
      · rw [hd] at hd'
        exact hc (by simpa using hd'.symm)
      · rw [hd] at hd'
        cases hd'
    exact (Function.update_of_ne hne _ _).trans hd'
  slots _ _ _ _ := rfl
  closes c' hc := by
    simp [State.closedBy, State.closeFd, List.countP_append, Ne.symm hc]

theorem frame_setSlot {i : Fin 4} (hi : ∀ c', c' ≠ c → ¬s.Mine c' i) (slot : Slot) :
    Frame c s (s.setSlot i slot) where
  fds _ _ _ h := h
  slots j c' hc hj := by
    refine Function.update_of_ne ?_ _ _
    rintro rfl
    exact hi c' hc hj
  closes _ _ := rfl

theorem not_mine_of_mine {i : Fin 4} (hi : s.Mine c i) (c' : ℕ) (hc : c' ≠ c) : ¬s.Mine c' i :=
  fun h => hc (h.2.symm.trans hi.2)

theorem not_mine_of_unused {i : Fin 4} (hi : (s.slots i).used = false) (c' : ℕ) : ¬s.Mine c' i :=
  fun h => by simp [State.Mine, hi] at h

theorem mine_setSlot {i : Fin 4} {slot : Slot} (hused : slot.used = true) (hconn : slot.conn = c) :
    (s.setSlot i slot).Mine c i := by
  have hslot : (s.setSlot i slot).slots i = slot := Function.update_self ..
  rw [State.Mine, hslot]
  exact ⟨hused, hconn⟩

theorem frame_sendTo {i : Fin 4} {d : ℕ} (hmine : s.Mine c i) (hd : s.fds d = some (.conn c)) :
    Frame c s ((s.closeFd c d).setSlot i { s.slots i with sock := none }) :=
  (frame_closeFd (.inl hd)).trans
    (frame_setSlot (s := s.closeFd c d) (not_mine_of_mine hmine) { s.slots i with sock := none })

theorem frame_accept {d : ℕ} (hd : s.fds d = none) : Frame s.next s (s.accept d) where
  fds d' c' _ hd' := by
    have hne : d' ≠ d := by
      rintro rfl
      rw [hd] at hd'
      cases hd'
    exact (Function.update_of_ne hne _ _).trans hd'
  slots _ _ _ _ := rfl
  closes _ _ := rfl

theorem fresh_update (hfresh : ∀ c, s.next ≤ c → s.conns c = .unborn)
    (hborn : s.conns c ≠ .unborn) (st : Status) (c' : ℕ) (hc' : s.next ≤ c') :
    Function.update s.conns c st c' = .unborn := by
  have hne : c' ≠ c := by
    rintro rfl
    exact hborn (hfresh c' hc')
  rw [Function.update_of_ne hne]
  exact hfresh c' hc'

theorem fresh_accept (hfresh : ∀ c, s.next ≤ c → s.conns c = .unborn) (d c : ℕ)
    (hc : (s.accept d).next ≤ c) : (s.accept d).conns c = .unborn := by
  have hlt : s.next < c := hc
  exact (Function.update_of_ne (by omega) _ _).trans (hfresh c hlt.le)

end Frame

/-! A server whose listening socket is the descriptor `l`, and no other is open. -/

def listening (l : ℕ) : State where
  fds d := if d = l then some .listen else none
  slots _ := ⟨false, some 0, 0⟩
  conns _ := .unborn
  busy := none
  next := 0
  closes := []

theorem initial_listening (l : ℕ) : Initial (listening l) where
  fds d c := by
    show (if d = l then some Owner.listen else none) ≠ _
    split_ifs <;> simp
  slots _ := rfl
  conns _ := rfl
  busy := rfl
  closes := rfl

/-- A connection from its slot up to the loop of its thread. -/
def connection (c : ℕ) : List Act := [.alloc c, .store c, .spawn c, .copy c, .greet c false]

end Psc.Net
