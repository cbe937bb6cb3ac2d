import Psc.Net.Listener

/-!
# A broadcast and the registered clients

`psc_client_alloc` registers a client with the descriptor 0, and the accept loop stores the client's
own afterwards, without the lock. A thread holds the number of its descriptor beyond a failed send,
and closes whatever has that number in the end.

`broadcast_of_orderly`: a broadcast writes once to each registered client whose send has not failed,
and to no other descriptor, in the runs in which it does not find a slot without its descriptor and
in which no descriptor is given out while a thread still holds its number.
-/

namespace Psc.Net

open Transition

/-- The slot that a connection has. -/
def Status.slot : Status → Option (Fin 4)
  | .allocated _ i => some i
  | .stored i => some i
  | .born i => some i
  | .greeting i _ => some i
  | .serving i _ => some i
  | .leaving i _ => some i
  | _ => none

/-- The copy of the descriptor that a thread holds. -/
def Status.copy : Status → Option ℕ
  | .greeting _ sock => sock
  | .serving _ sock => sock
  | .leaving _ sock => sock
  | .freed sock => sock
  | _ => none

/-- A broadcast between `psc_client_alloc` and the store finds there the number that is to be
stored, and does not fail at it. A descriptor is accepted only if no thread holds its number. -/
def Orderly (s : State) : Act → Prop
  | .send fails => ∀ c d i, s.conns c = .allocated d i → d = 0 ∧ fails i = false
  | .accept d => ∀ c, (s.conns c).copy ≠ some d
  | _ => True

/-- The writes of a broadcast. -/
def writes (ev : List Event) : List Event := ev.filter fun e => !e.closes

/-- What a broadcast from the state `s` should do: it writes to and closes only descriptors of the
clients that are registered, it writes at most once to each connection, and it writes to each that
is registered and has not failed before. -/
structure Broadcast (s : State) (ev : List Event) : Prop where
  registered : ∀ e ∈ ev, (s.slots e.slot).used = true ∧
    e.owner = some (.conn (s.slots e.slot).conn)
  once : ((writes ev).map Event.owner).Nodup
  reaches : ∀ i, (s.slots i).used = true → (s.slots i).sock ≠ none → ∃ e ∈ writes ev, e.slot = i

/-! ## The invariant -/

namespace State

variable (s : State)

/-- `sock` is a descriptor of connection `c`, or -1. -/
def Owns (c : ℕ) (sock : Option ℕ) : Prop := ∀ d, sock = some d → s.fds d = some (.conn c)

/-- `sock` is a number that connection `c` may close. -/
def MayClose (c : ℕ) (sock : Option ℕ) : Prop :=
  ∀ d, sock = some d → s.fds d = some (.conn c) ∨ s.fds d = none

/-- Slot `i` is registered for connection `c` and holds its descriptor, or -1. -/
def Has (c : ℕ) (i : Fin 4) : Prop := s.Mine c i ∧ s.Owns c (s.slots i).sock

end State

/-- What holds of a connection, by where it is. -/
def Status.Registered (s : State) (c : ℕ) : Status → Prop
  | .unborn => True
  | .accepted d => s.fds d = some (.conn c)
  | .refused d => s.fds d = some (.conn c)
  | .allocated d i => s.Mine c i ∧ (s.slots i).sock = some 0 ∧ s.fds d = some (.conn c)
  | .stored i => s.Has c i
  | .born i => s.Has c i
  | .greeting i sock => s.Has c i ∧ s.MayClose c sock
  | .serving i sock => s.Has c i ∧ s.MayClose c sock
  | .leaving i sock => s.Has c i ∧ s.MayClose c sock
  | .freed sock => s.MayClose c sock
  | .ended => True

/-- The invariant. -/
structure Registered (s : State) : Prop where
  fresh : ∀ c, s.next ≤ c → s.conns c = .unborn
  used : ∀ i, (s.slots i).used = true → (s.conns (s.slots i).conn).slot = some i
  conn : ∀ c, (s.conns c).Registered s c

section Broadcasts

variable {s s' : State} {c : ℕ}

theorem Registered.at_status (hs : Registered s) {st : Status} (hc : s.conns c = st) :
    st.Registered s c := hc ▸ hs.conn c

theorem Frame.owns (h : Frame c s s') {c' : ℕ} (hc : c' ≠ c) {sock : Option ℕ}
    (ho : s.Owns c' sock) : s'.Owns c' sock :=
  fun d hd => h.fds d c' hc (ho d hd)

theorem Frame.has (h : Frame c s s') {c' : ℕ} (hc : c' ≠ c) {i : Fin 4} (hi : s.Has c' i) :
    s'.Has c' i :=
  ⟨h.mine hc hi.1, h.slots i c' hc hi.1 ▸ h.owns hc hi.2⟩

/-- What holds of the other connections stays, if what their threads hold does not come to be owned
by another. -/
theorem Frame.registered (h : Frame c s s') {c' : ℕ} (hc : c' ≠ c) {st : Status}
    (hcopy : ∀ d, st.copy = some d → s.fds d = none → s'.fds d = none)
    (hst : st.Registered s c') : st.Registered s' c' := by
  have hmay : s.MayClose c' st.copy → s'.MayClose c' st.copy := by
    intro hm d hd
    rcases hm d hd with hown | hnone
    · exact .inl (h.fds d c' hc hown)
    · exact .inr (hcopy d hd hnone)
  cases st with
  | unborn => trivial
  | accepted d => exact h.fds d c' hc hst
  | refused d => exact h.fds d c' hc hst
  | allocated d i =>
    exact ⟨h.mine hc hst.1, h.slots i c' hc hst.1 ▸ hst.2.1, h.fds d c' hc hst.2.2⟩
  | stored i => exact h.has hc hst
  | born i => exact h.has hc hst
  | greeting i sock => exact ⟨h.has hc hst.1, hmay hst.2⟩
  | serving i sock => exact ⟨h.has hc hst.1, hmay hst.2⟩
  | leaving i sock => exact ⟨h.has hc hst.1, hmay hst.2⟩
  | freed sock => exact hmay hst
  | ended => trivial

theorem registered_setConn (s : State) (c c' : ℕ) (st st' : Status) (busy : Option ℕ) :
    st'.Registered { s.setConn c st with busy := busy } c' ↔ st'.Registered s c' := by
  cases st' <;> rfl

/-- A step on behalf of connection `c` keeps the invariant if it opens nothing, keeps the part of
`c`, and the slots that are in use afterwards are those of their connections. -/
theorem Registered.update (hs : Registered s) (hF : Frame c s s')
    (hfree : ∀ d, s.fds d = none → s'.fds d = none) (hborn : s.conns c ≠ .unborn)
    (hnext : s'.next = s.next) (hconns : s'.conns = s.conns) (st : Status)
    (hused : ∀ i, (s'.slots i).used = true →
      (Function.update s.conns c st (s'.slots i).conn).slot = some i)
    (hst : st.Registered s' c) (busy : Option ℕ) :
    Registered { s'.setConn c st with busy := busy } where
  fresh c' hc' := by
    show Function.update s'.conns c st c' = .unborn
    rw [hconns]
    exact fresh_update hs.fresh hborn st c' (hnext ▸ hc')
  used i hi := by
    show (Function.update s'.conns c st (s'.slots i).conn).slot = some i
    rw [hconns]
    exact hused i hi
  conn c' := by
    rw [registered_setConn]
    show Status.Registered s' c' (Function.update s'.conns c st c')
    by_cases hc : c' = c
    · rw [hc, Function.update_self]
      exact hst
    · rw [Function.update_of_ne hc, hconns]
      exact hF.registered hc (fun d _ => hfree d) (hs.conn c')

theorem Registered.used_same (hs : Registered s) {st : Status} (hst : st.slot = (s.conns c).slot)
    (i : Fin 4) (hi : (s.slots i).used = true) :
    (Function.update s.conns c st (s.slots i).conn).slot = some i := by
  by_cases hc : (s.slots i).conn = c
  · rw [hc, Function.update_self, hst, ← hc]
    exact hs.used i hi
  · rw [Function.update_of_ne hc]
    exact hs.used i hi

theorem used_setSlot (hs : ∀ i, (s.slots i).used = true → (s.conns (s.slots i).conn).slot = some i)
    {i : Fin 4} {slot : Slot} {st : Status} (hold : ∀ j, (s.conns c).slot = some j → j = i)
    (hslot : slot.used = true → slot.conn = c ∧ st.slot = some i) (j : Fin 4)
    (hj : (Function.update s.slots i slot j).used = true) :
    (Function.update s.conns c st (Function.update s.slots i slot j).conn).slot = some j := by
  by_cases hji : j = i
  · rw [hji, Function.update_self] at hj ⊢
    rw [(hslot hj).1, Function.update_self]
    exact (hslot hj).2
  · rw [Function.update_of_ne hji] at hj ⊢
    have hne : (s.slots j).conn ≠ c := by
      rintro hc
      exact hji (hold j (hc ▸ hs j hj))
    rw [Function.update_of_ne hne]
    exact hs j hj

theorem Registered.move (hs : Registered s) (hborn : s.conns c ≠ .unborn) (st : Status)
    (hslot : st.slot = (s.conns c).slot) (hst : st.Registered s c) (busy : Option ℕ) :
    Registered { s.setConn c st with busy := busy } :=
  hs.update (Frame.refl c s) (fun _ h => h) hborn rfl rfl st (hs.used_same hslot) hst busy

theorem has_of_slot {st : Status} (h : st.Registered s c) {i : Fin 4} (hslot : st.slot = some i)
    (hstored : ∀ d, st ≠ .allocated d i) : s.Has c i := by
  cases st with
  | allocated d j =>
    cases hslot
    exact absurd rfl (hstored d)
  | stored j => cases hslot; exact h
  | born j => cases hslot; exact h
  | greeting j sock => cases hslot; exact h.1
  | serving j sock => cases hslot; exact h.1
  | leaving j sock => cases hslot; exact h.1
  | unborn => cases hslot
  | accepted d => cases hslot
  | refused d => cases hslot
  | freed sock => cases hslot
  | ended => cases hslot

/-- The descriptor in a slot is that of its client, also in a slot that is still to get it if that
one is 0. -/
theorem Registered.owner_of_sock (hs : Registered s) {i : Fin 4} {d : ℕ}
    (hused : (s.slots i).used = true) (hzero : ∀ c d, s.conns c = .allocated d i → d = 0)
    (hsock : (s.slots i).sock = some d) : s.fds d = some (.conn (s.slots i).conn) := by
  by_cases hst : ∃ d', s.conns (s.slots i).conn = .allocated d' i
  · obtain ⟨d', hst⟩ := hst
    obtain ⟨-, hnull, hown⟩ := hs.at_status hst
    obtain rfl : 0 = d := by simpa [hnull] using hsock
    rwa [hzero _ d' hst] at hown
  · have hhas := has_of_slot (hs.conn _) (hs.used i hused) fun d' hd' => hst ⟨d', hd'⟩
    exact hhas.2 d hsock

theorem closeFd_none (c d : ℕ) {d' : ℕ} (h : s.fds d' = none) : (s.closeFd c d).fds d' = none := by
  show Function.update s.fds d none d' = none
  by_cases hd : d' = d
  · rw [hd, Function.update_self]
  · rw [Function.update_of_ne hd]
    exact h

theorem mayClose_closeFd {sock : Option ℕ} (h : s.MayClose c sock) (d : ℕ) :
    (s.closeFd c d).MayClose c sock := by
  intro d' hd'
  by_cases hd : d' = d
  · rw [hd]
    exact .inr (Function.update_self ..)
  · rcases h d' hd' with hown | hnone
    · exact .inl ((Function.update_of_ne hd _ _).trans hown)
    · exact .inr (closeFd_none c d hnone)

/-- A failed send leaves -1 in the slot, and the thread with a number that is not open. -/
theorem registered_failed {i : Fin 4} {d : ℕ} (hmine : s.Mine c i) {st : Status}
    (hst : st.Registered s c) (hslot : st.slot = some i) (hstored : ∀ d, st ≠ .allocated d i) :
    st.Registered ((s.closeFd c d).setSlot i { s.slots i with sock := none }) c := by
  have hhas : ((s.closeFd c d).setSlot i { s.slots i with sock := none }).Has c i := by
    have hself : ((s.closeFd c d).setSlot i { s.slots i with sock := none }).slots i =
        { s.slots i with sock := none } := Function.update_self ..
    refine ⟨mine_setSlot hmine.1 hmine.2, fun d' hd' => ?_⟩
    rw [hself] at hd'
    cases hd'
  cases st with
  | allocated d' j =>
    cases hslot
    exact absurd rfl (hstored d')
  | stored j => cases hslot; exact hhas
  | born j => cases hslot; exact hhas
  | greeting j sock => cases hslot; exact ⟨hhas, mayClose_closeFd hst.2 d⟩
  | serving j sock => cases hslot; exact ⟨hhas, mayClose_closeFd hst.2 d⟩
  | leaving j sock => cases hslot; exact ⟨hhas, mayClose_closeFd hst.2 d⟩
  | unborn => cases hslot
  | accepted d' => cases hslot
  | refused d' => cases hslot
  | freed sock => cases hslot
  | ended => cases hslot

theorem registered_sendTo (hs : Registered s) {fails : Bool} {i : Fin 4} {ev : List Event}
    (hused : (s.slots i).used = true)
    (hstored : fails = true → ∀ c d, s.conns c ≠ .allocated d i)
    (h : s.sendTo fails i = some (s', ev)) : Registered s' := by
  rcases sendTo_cases h with ⟨rfl, -, -, -⟩ | ⟨d, rfl, -, -, -⟩ | ⟨d, rfl, -, hf, hsock⟩
  · exact hs
  · exact hs
  · have hd := hs.owner_of_sock hused (fun c d hc => absurd hc (hstored hf c d)) hsock
    have hslot := hs.used i hused
    generalize hc : (s.slots i).conn = c at hd hslot ⊢
    have hmine : s.Mine c i := ⟨hused, hc⟩
    have hborn : s.conns c ≠ .unborn := by
      rintro hun
      simp [hun, Status.slot] at hslot
    have hupd := hs.update (frame_sendTo hmine hd) (fun d' => closeFd_none c d) hborn rfl rfl
      (s.conns c)
      (used_setSlot hs.used (fun j hj => by simpa [hslot] using hj.symm) fun _ => ⟨hc, hslot⟩)
      (registered_failed hmine (hs.conn c) hslot (hstored hf c)) s.busy
    have hsame : Function.update s.conns c (s.conns c) = s.conns :=
      Function.update_eq_self c s.conns
    simpa only [State.setConn, State.setSlot, State.closeFd, hsame] using hupd

theorem sendTo_events {fails : Bool} {i : Fin 4} {ev : List Event}
    (h : s.sendTo fails i = some (s', ev)) :
    ∀ e ∈ ev, e.slot = i ∧ ∃ d, (s.slots i).sock = some d ∧ e.owner = s.fds d := by
  rcases sendTo_cases h with ⟨-, rfl, -, -⟩ | ⟨d, -, rfl, -, hsock⟩ | ⟨d, -, rfl, -, hsock⟩
  · simp
  · simp [hsock]
  · simp [hsock]

/-- What the sends of a broadcast preserve, and whom they are to. -/
theorem registered_pscSend (hs : Registered s) {fails : Fin 4 → Bool}
    (ha : Orderly s (.send fails)) {is : List (Fin 4)} {ev : List Event}
    (h : pscSend fails s is = some (s', ev)) : Registered s' ∧
      ∀ e ∈ ev, (s.slots e.slot).used = true ∧ e.owner = some (.conn (s.slots e.slot).conn) := by
  have hinv := pscSend_invariant
    (I := fun s₁ => Registered s₁ ∧ s₁.conns = s.conns ∧
      (∀ j, (s₁.slots j).used = (s.slots j).used) ∧ ∀ j, (s₁.slots j).conn = (s.slots j).conn)
    (P := fun e => (s.slots e.slot).used = true ∧ e.owner = some (.conn (s.slots e.slot).conn))
    (fun s₁ i s₂ ev h₁ hi hsend => by
      obtain ⟨hs₁, hconns, hused, hconn⟩ := h₁
      obtain ⟨hconns₂, hused₂, hconn₂, -⟩ := sendTo_keeps hsend
      have hstored : fails i = true → ∀ c d, s₁.conns c ≠ .allocated d i := by
        intro hf c d hc
        have hnot := (ha c d i (hconns ▸ hc)).2
        rw [hf] at hnot
        cases hnot
      have hs₂ := registered_sendTo hs₁ hi hstored hsend
      refine ⟨⟨hs₂, hconns₂.trans hconns, fun j => (hused₂ j).trans (hused j),
        fun j => (hconn₂ j).trans (hconn j)⟩, fun e he => ?_⟩
      obtain ⟨rfl, d, hsock, howner⟩ := sendTo_events hsend e he
      have hown := hs₁.owner_of_sock hi (fun c d' hc => (ha c d' e.slot (hconns ▸ hc)).1) hsock
      exact ⟨(hused e.slot).symm.trans hi, by rw [howner, hown, hconn]⟩)
    is ⟨hs, rfl, fun _ => rfl, fun _ => rfl⟩ h
  exact ⟨hinv.1.1, hinv.2⟩

/-- A new connection has its descriptor, and no thread holds the number. -/
theorem registered_accept (hs : Registered s) {d : ℕ} (hd : s.fds d = none)
    (hcopy : ∀ c, (s.conns c).copy ≠ some d) : Registered (s.accept d) where
  fresh := fresh_accept hs.fresh d
  used i hi := by
    have hslot := hs.used i hi
    have hne : (s.slots i).conn ≠ s.next := by
      intro hc
      rw [hc, hs.fresh s.next le_rfl] at hslot
      cases hslot
    show (Function.update s.conns s.next (.accepted d) (s.slots i).conn).slot = some i
    rw [Function.update_of_ne hne]
    exact hslot
  conn c := by
    show Status.Registered _ c (Function.update s.conns s.next (.accepted d) c)
    by_cases hc : c = s.next
    · rw [hc, Function.update_self]
      exact Function.update_self ..
    · rw [Function.update_of_ne hc]
      refine (frame_accept hd).registered hc (fun d' hd' hnone => ?_) (hs.conn c)
      have hne : d' ≠ d := by
        rintro rfl
        exact hcopy c hd'
      exact (Function.update_of_ne hne _ _).trans hnone

theorem registered_closeSock (hs : Registered s) {sock : Option ℕ} (hmay : s.MayClose c sock)
    (hborn : s.conns c ≠ .unborn) (hslot : (s.conns c).slot = none) (busy : Option ℕ) :
    Registered { (s.closeSock c sock).setConn c .ended with busy := busy } := by
  cases sock with
  | none => exact hs.move hborn .ended hslot.symm trivial busy
  | some d =>
    exact hs.update (frame_closeFd (hmay d rfl)) (fun d' => closeFd_none c d) hborn rfl rfl .ended
      (hs.used_same hslot.symm) trivial busy

/-- **The invariant through a step.** -/
theorem registered_step {a : Act} (hs : Registered s) (ha : Orderly s a) (h : step s a = some s') :
    Registered s' := by
  cases Step.of_step h with
  | accept d hbusy hd => exact registered_accept hs hd ha
  | alloc c d i hc hi =>
    have hF := frame_setSlot (c := c) (fun c' _ => not_mine_of_unused hi c') ⟨true, some 0, c⟩
    have hnull : ((s.setSlot i ⟨true, some 0, c⟩).slots i).sock = some 0 := by simp [State.setSlot]
    exact hs.update hF (fun _ h => h) (by simp [hc]) rfl rfl (.allocated d i)
      (used_setSlot hs.used (by simp [hc, Status.slot]) fun _ => ⟨rfl, rfl⟩)
      ⟨mine_setSlot rfl rfl, hnull, hs.at_status hc⟩ s.busy
  | refuse c d hc =>
    have hst := hs.at_status hc
    exact hs.move (by simp [hc]) (.refused d) (by simp [hc, Status.slot]) hst s.busy
  | drop c d hc =>
    have hown : s.fds d = some (.conn c) := hs.at_status hc
    have hmay : s.MayClose c (some d) := by
      rintro d' ⟨⟩
      exact .inl hown
    exact registered_closeSock hs hmay (by simp [hc]) (by simp [hc, Status.slot]) none
  | store c d i hc =>
    obtain ⟨hmine, -, hown⟩ := hs.at_status hc
    have hF := frame_setSlot (not_mine_of_mine hmine) { s.slots i with sock := some d }
    have hslot : ((s.setSlot i { s.slots i with sock := some d }).slots i).sock = some d := by
      simp [State.setSlot]
    have hhas : (s.setSlot i { s.slots i with sock := some d }).Has c i := by
      refine ⟨mine_setSlot hmine.1 hmine.2, fun d' hd' => ?_⟩
      rw [hslot] at hd'
      cases hd'
      exact hown
    exact hs.update hF (fun _ h => h) (by simp [hc]) rfl rfl (.stored i)
      (used_setSlot hs.used (by simp [hc, Status.slot]) fun _ => ⟨hmine.2, rfl⟩) hhas s.busy
  | spawn c i hc =>
    have hst := hs.at_status hc
    exact hs.move (by simp [hc]) (.born i) (by simp [hc, Status.slot]) hst none
  | copy c i hc =>
    have hhas : s.Has c i := hs.at_status hc
    exact hs.move (by simp [hc]) (.greeting i (s.slots i).sock) (by simp [hc, Status.slot])
      ⟨hhas, fun d hd => .inl (hhas.2 d hd)⟩ s.busy
  | greet c i sock fails s₁ ev hc hsend =>
    have hmine := (hs.at_status hc).1.1
    have hstored : fails = true → ∀ c' d, s.conns c' ≠ .allocated d i := by
      rintro - c' d hc'
      have hmine' := (hs.at_status hc').1
      obtain rfl : c = c' := hmine.2.symm.trans hmine'.2
      rw [hc] at hc'
      cases hc'
    have hs₁ := registered_sendTo hs hmine.1 hstored hsend
    have hc₁ : s₁.conns c = .greeting i sock := by rw [(sendTo_keeps hsend).1, hc]
    have hst := hs₁.at_status hc₁
    exact hs₁.move (by simp [hc₁]) (.serving i sock) (by simp [hc₁, Status.slot]) hst s₁.busy
  | recv c => exact hs
  | readError c i sock hc =>
    have hst := hs.at_status hc
    exact hs.move (by simp [hc]) (.leaving i sock) (by simp [hc, Status.slot]) hst s.busy
  | free c i sock hc =>
    obtain ⟨⟨hmine, -⟩, hmay⟩ := hs.at_status hc
    have hF := frame_setSlot (not_mine_of_mine hmine) ⟨false, some 0, c⟩
    exact hs.update hF (fun _ h => h) (by simp [hc]) rfl rfl (.freed sock)
      (used_setSlot hs.used (by simp [hc, Status.slot]) (by simp)) hmay s.busy
  | close c sock hc =>
    exact registered_closeSock hs (hs.at_status hc) (by simp [hc]) (by simp [hc, Status.slot])
      (s.closeSock c sock).busy
  | send fails s₁ ev hsend => exact (registered_pscSend hs ha hsend).1

theorem registered_initial (hs : Initial s) : Registered s where
  fresh c _ := hs.conns c
  used i hi := by
    rw [hs.slots] at hi
    cases hi
  conn c := by
    rw [hs.conns]
    trivial

/-! ## The broadcast -/

theorem slots_writes {fails : Fin 4 → Bool} {is : List (Fin 4)} {ev : List Event}
    (h : pscSend fails s is = some (s', ev)) : ((writes ev).map Event.slot).Sublist is := by
  induction is generalizing s ev with
  | nil =>
    obtain ⟨-, rfl⟩ := Prod.mk.inj (Option.some.inj h)
    exact List.Sublist.slnil
  | cons i is ih =>
    obtain ⟨s₁, ev₁, ev₂, h₁, h₂, rfl⟩ := pscSend_cons h
    have hfirst : ((writes ev₁).map Event.slot).Sublist [i] := by
      rcases sendIfUsed_cases h₁ with ⟨-, h₁⟩ | ⟨-, -, rfl⟩
      · rcases sendTo_cases h₁ with ⟨-, rfl, -, -⟩ | ⟨d, -, rfl, -, -⟩ | ⟨d, -, rfl, -, -⟩
        · simp [writes]
        · simp [writes]
        · simp [writes]
      · simp [writes]
    have happend := hfirst.append (ih h₂)
    simpa [writes] using happend

/-- A broadcast writes to each client that is registered and whose descriptor is not -1. -/
theorem write_of_used {fails : Fin 4 → Bool} {is : List (Fin 4)} {ev : List Event}
    (h : pscSend fails s is = some (s', ev)) {i : Fin 4} (hi : i ∈ is)
    (hused : (s.slots i).used = true) (hsock : (s.slots i).sock ≠ none) :
    ∃ e ∈ writes ev, e.slot = i := by
  induction is generalizing s ev with
  | nil => cases hi
  | cons j is ih =>
    obtain ⟨s₁, ev₁, ev₂, h₁, h₂, rfl⟩ := pscSend_cons h
    have happend : writes (ev₁ ++ ev₂) = writes ev₁ ++ writes ev₂ := List.filter_append ..
    by_cases hij : i = j
    · have hfirst : ∃ e ∈ writes ev₁, e.slot = i := by
        rcases sendIfUsed_cases h₁ with ⟨-, h₁⟩ | ⟨hnot, -⟩
        · rcases sendTo_cases h₁ with ⟨-, -, -, hnone⟩ | ⟨d, -, rfl, -, -⟩ | ⟨d, -, rfl, -, -⟩
          · exact absurd (hij ▸ hnone) hsock
          · simp [writes, hij]
          · simp [writes, hij]
        · rw [← hij, hused] at hnot
          cases hnot
      obtain ⟨e, he, hslot⟩ := hfirst
      exact ⟨e, by rw [happend]; exact List.mem_append_left _ he, hslot⟩
    · have hsame : s₁.slots i = s.slots i := by
        rcases sendIfUsed_cases h₁ with ⟨-, h₁⟩ | ⟨-, rfl, -⟩
        · exact (sendTo_keeps h₁).2.2.2 i hij
        · rfl
      have hmem : i ∈ is := (List.mem_cons.mp hi).resolve_left hij
      obtain ⟨e, he, hslot⟩ := ih h₂ hmem (hsame ▸ hused) (hsame ▸ hsock)
      exact ⟨e, by rw [happend]; exact List.mem_append_right _ he, hslot⟩

theorem Registered.slot_inj (hs : Registered s) {i j : Fin 4} (hi : (s.slots i).used = true)
    (hj : (s.slots j).used = true) (hconn : (s.slots i).conn = (s.slots j).conn) : i = j := by
  have hslot := hs.used i hi
  rw [hconn, hs.used j hj] at hslot
  exact (Option.some.inj hslot).symm

/-- **A broadcast and the registered clients.** In the runs in which a broadcast does not find a
slot without its descriptor, and in which no descriptor is given out while a thread still holds its
number, a broadcast writes once to each connection that is registered and has not failed before, and
writes to and closes no descriptor of another. -/
theorem broadcast_of_orderly (h : Reach step Orderly Initial s) {fails : Fin 4 → Bool}
    (ha : Orderly s (.send fails)) {ev : List Event}
    (hsend : pscSend fails s (List.finRange 4) = some (s', ev)) : Broadcast s ev := by
  have hs : Registered s := h.invariant (fun _ => registered_initial)
    fun _ _ _ hs ha hstep => registered_step hs ha hstep
  have hreg := (registered_pscSend hs ha hsend).2
  refine ⟨hreg, ?_, fun i hused hsock => write_of_used hsend (List.mem_finRange i) hused hsock⟩
  have hnodup : ((writes ev).map Event.slot).Nodup :=
    (slots_writes hsend).nodup (List.nodup_finRange 4)
  -- one slot for each connection
  refine List.Nodup.map_on (fun e he e' he' howner => ?_) hnodup.of_map
  obtain ⟨hused, hown⟩ := hreg e (List.mem_of_mem_filter he)
  obtain ⟨hused', hown'⟩ := hreg e' (List.mem_of_mem_filter he')
  have hconn : (s.slots e.slot).conn = (s.slots e'.slot).conn := by
    rw [hown, hown'] at howner
    simpa using howner
  exact List.inj_on_of_nodup_map hnodup he he' (hs.slot_inj hused hused' hconn)

end Broadcasts

/-- Two clients are served, and a broadcast fails at the first. -/
theorem two_clients_reached : ∃ s s' ev, Reach step Orderly Initial s ∧
    pscSend (fun i => i == 0) s (List.finRange 4) = some (s', ev) ∧
    writes ev = [⟨false, 0, 5, some (.conn 0)⟩, ⟨false, 1, 6, some (.conn 1)⟩] ∧
    Broadcast s ev := by
  have hs₁ : Reach step Orderly Initial ((listening 3).accept 5) :=
    .next (.accept 5) (.start (initial_listening 3)) (fun c hc => by cases hc) rfl
  obtain ⟨s₂, h₂, hcopy, s₃, h₃, s₄, h₄, hstored, s', ev, hsend, hev⟩ :
      ∃ s₂, runs step ((listening 3).accept 5) (connection 0) = some s₂ ∧
      (∀ c, (s₂.conns c).copy ≠ some 6) ∧
      ∃ s₃, step s₂ (.accept 6) = some s₃ ∧
      ∃ s₄, runs step s₃ (connection 1) = some s₄ ∧ (∀ c d i, s₄.conns c ≠ .allocated d i) ∧
      ∃ s' ev, pscSend (fun i => i == 0) s₄ (List.finRange 4) = some (s', ev) ∧
        writes ev = [⟨false, 0, 5, some (.conn 0)⟩, ⟨false, 1, 6, some (.conn 1)⟩] := by
    refine ⟨_, rfl, fun c => ?_, _, rfl, _, rfl, fun c => ?_, _, _, rfl, by decide⟩
    · by_cases hc : c = 0
      · rw [hc]
        decide
      · simp [hc, State.setConn, State.accept, listening, State.setSlot, Status.copy]
    · by_cases hc : c = 0
      · rw [hc]
        rintro d i ⟨⟩
      · by_cases hc₁ : c = 1
        · rw [hc₁]
          rintro d i ⟨⟩
        · simp [hc, hc₁, State.setConn, State.accept, listening, State.setSlot]
  have hs₂ : Reach step Orderly Initial s₂ := reach_of_runs hs₁ (by simp [connection, Orderly]) h₂
  have hs₃ : Reach step Orderly Initial s₃ := .next (.accept 6) hs₂ hcopy h₃
  have hs₄ : Reach step Orderly Initial s₄ := reach_of_runs hs₃ (by simp [connection, Orderly]) h₄
  have ha : Orderly s₄ (.send fun i => i == 0) := fun c d i hc => absurd hc (hstored c d i)
  exact ⟨s₄, s', ev, hs₄, hsend, hev, broadcast_of_orderly hs₄ ha hsend⟩

/-! The broadcast comes before the descriptor 5 is stored, and the listening socket is 0. -/

theorem listening_closed : ∃ s s' ev, Reach step (fun _ _ => True) Initial s ∧
    pscSend (fun i => i == 0) s (List.finRange 4) = some (s', ev) ∧
    ev = [⟨false, 0, 0, some .listen⟩, ⟨true, 0, 0, some .listen⟩] ∧ ¬Broadcast s ev := by
  obtain ⟨s, hs, s', ev, hsend, hev⟩ : ∃ s, runs step (listening 0) [.accept 5, .alloc 0] = some s ∧
      ∃ s' ev, pscSend (fun i => i == 0) s (List.finRange 4) = some (s', ev) ∧
        ev = [⟨false, 0, 0, some .listen⟩, ⟨true, 0, 0, some .listen⟩] :=
    ⟨_, rfl, _, _, rfl, by decide⟩
  refine ⟨s, s', ev, reach_of_runs (.start (initial_listening 0)) (fun _ _ _ => trivial) hs, hsend,
    hev, fun h => ?_⟩
  have howner := (h.registered ⟨false, 0, 0, some .listen⟩ (by simp [hev])).2
  simp at howner

end Psc.Net
