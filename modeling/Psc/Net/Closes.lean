import Psc.Net.Listener

/-!
# Each descriptor is closed once

A failed send closes the descriptor in the slot of its client, and the thread of the client closes
its own copy. `closedOnce_of_failsEarly`: each descriptor is closed once and by its own connection
in the runs in which a send fails only before the thread of its client has taken the copy.
-/

namespace Psc.Net

open Transition


namespace State

variable (s : State)

/-- Connection `c` is still to close the descriptor `sock`; -1 stands for one that is closed. -/
def Owes (c : ℕ) : Option ℕ → Prop
  | some d => s.fds d = some (.conn c) ∧ s.closedBy c = 0
  | none => s.closedBy c = 1

end State

/-- Each descriptor is closed by its own connection, at most once, and once when the connection has
ended. -/
structure ClosedOnce (s : State) : Prop where
  own : ∀ k ∈ s.closes, k.owner = some (.conn k.conn)
  once : ∀ c, s.closedBy c ≤ 1
  ended : ∀ c, s.conns c = .ended → s.closedBy c = 1

/-- A send fails only before the thread of its client has copied the descriptor, and not before the
accept loop has stored it. -/
def FailsEarly (s : State) : Act → Prop
  | .send fails => ∀ i, fails i = true → ∃ c, s.conns c = .stored i ∨ s.conns c = .born i
  | .greet _ fails => fails = false
  | _ => True

/-- What a connection has closed and is still to close, by where it is. -/
def Status.Accounted (s : State) (c : ℕ) : Status → Prop
  | .unborn => s.closedBy c = 0
  | .accepted d => s.Owes c (some d)
  | .refused d => s.Owes c (some d)
  | .allocated d i => s.Mine c i ∧ s.Owes c (some d)
  | .stored i => s.Mine c i ∧ s.Owes c (s.slots i).sock
  | .born i => s.Mine c i ∧ s.Owes c (s.slots i).sock
  | .greeting i sock => s.Mine c i ∧ (s.slots i).sock = sock ∧ s.Owes c sock
  | .serving i sock => s.Mine c i ∧ (s.slots i).sock = sock ∧ s.Owes c sock
  | .leaving i sock => s.Mine c i ∧ (s.slots i).sock = sock ∧ s.Owes c sock
  | .freed sock => s.Owes c sock
  | .ended => s.closedBy c = 1

/-- The invariant. -/
structure Accounted (s : State) : Prop where
  fresh : ∀ c, s.next ≤ c → s.conns c = .unborn
  own : ∀ k ∈ s.closes, k.owner = some (.conn k.conn)
  conn : ∀ c, (s.conns c).Accounted s c

section Closes

variable {s s' : State} {c : ℕ}

theorem Frame.owes (h : Frame c s s') {c' : ℕ} (hc : c' ≠ c) {sock : Option ℕ}
    (ho : s.Owes c' sock) : s'.Owes c' sock := by
  cases sock with
  | none => exact (h.closes c' hc).trans ho
  | some d => exact ⟨h.fds d c' hc ho.1, (h.closes c' hc).trans ho.2⟩

theorem Frame.accounted (h : Frame c s s') {c' : ℕ} (hc : c' ≠ c) {st : Status}
    (hst : st.Accounted s c') : st.Accounted s' c' := by
  cases st with
  | unborn => exact (h.closes c' hc).trans hst
  | accepted d => exact h.owes hc (show s.Owes c' (some d) from hst)
  | refused d => exact h.owes hc (show s.Owes c' (some d) from hst)
  | allocated d i => exact ⟨h.mine hc hst.1, h.owes hc hst.2⟩
  | stored i => exact ⟨h.mine hc hst.1, h.slots i c' hc hst.1 ▸ h.owes hc hst.2⟩
  | born i => exact ⟨h.mine hc hst.1, h.slots i c' hc hst.1 ▸ h.owes hc hst.2⟩
  | greeting i sock =>
    exact ⟨h.mine hc hst.1, h.slots i c' hc hst.1 ▸ hst.2.1, h.owes hc hst.2.2⟩
  | serving i sock =>
    exact ⟨h.mine hc hst.1, h.slots i c' hc hst.1 ▸ hst.2.1, h.owes hc hst.2.2⟩
  | leaving i sock =>
    exact ⟨h.mine hc hst.1, h.slots i c' hc hst.1 ▸ hst.2.1, h.owes hc hst.2.2⟩
  | freed sock => exact h.owes hc hst
  | ended => exact (h.closes c' hc).trans hst

theorem closedBy_closeFd (d : ℕ) : (s.closeFd c d).closedBy c = s.closedBy c + 1 := by
  simp [State.closedBy, State.closeFd, List.countP_append]

theorem accounted_setConn (s : State) (c c' : ℕ) (st st' : Status) (busy : Option ℕ) :
    st'.Accounted { s.setConn c st with busy := busy } c' ↔ st'.Accounted s c' := by
  cases st' <;> rfl

theorem Accounted.update (hs : Accounted s) (hF : Frame c s s') (hborn : s.conns c ≠ .unborn)
    (hnext : s'.next = s.next) (hconns : s'.conns = s.conns)
    (hown : ∀ k ∈ s'.closes, k.owner = some (.conn k.conn)) (st : Status) (hst : st.Accounted s' c)
    (busy : Option ℕ) : Accounted { s'.setConn c st with busy := busy } where
  fresh c' hc' := by
    show Function.update s'.conns c st c' = .unborn
    rw [hconns]
    exact fresh_update hs.fresh hborn st c' (hnext ▸ hc')
  own := hown
  conn c' := by
    rw [accounted_setConn]
    show Status.Accounted s' c' (Function.update s'.conns c st c')
    by_cases hc : c' = c
    · rw [hc, Function.update_self]
      exact hst
    · rw [Function.update_of_ne hc, hconns]
      exact hF.accounted hc (hs.conn c')

theorem Accounted.at_status (hs : Accounted s) {st : Status} (hc : s.conns c = st) :
    st.Accounted s c := hc ▸ hs.conn c

theorem own_closeFd (hs : Accounted s) {d : ℕ} (hd : s.fds d = some (.conn c)) :
    ∀ k ∈ (s.closeFd c d).closes, k.owner = some (.conn k.conn) := by
  intro k hk
  rcases List.mem_append.mp hk with hk | hk
  · exact hs.own k hk
  · rw [List.mem_singleton] at hk
    rw [hk]
    exact hd

/-- A send that fails before the copy closes the descriptor of its client. -/
theorem accounted_sendTo (hs : Accounted s) {fails : Bool} {i : Fin 4} {ev : List Event}
    (hused : (s.slots i).used = true)
    (hearly : fails = true → ∃ c, s.conns c = .stored i ∨ s.conns c = .born i)
    (h : s.sendTo fails i = some (s', ev)) : Accounted s' := by
  rcases sendTo_cases h with ⟨rfl, -, -, -⟩ | ⟨d, rfl, -, -, -⟩ | ⟨d, rfl, -, hf, hsock⟩
  · exact hs
  · exact hs
  · obtain ⟨c, hc⟩ := hearly hf
    obtain ⟨hmine, howes⟩ : s.Mine c i ∧ s.Owes c (some d) := by
      rcases hc with hc | hc
      · exact hsock ▸ hs.at_status hc
      · exact hsock ▸ hs.at_status hc
    rw [hmine.2]
    have hF := frame_sendTo hmine howes.1
    have hslot : ((s.closeFd c d).setSlot i { s.slots i with sock := none }).slots i =
        { s.slots i with sock := none } := Function.update_self ..
    have hmine' : ((s.closeFd c d).setSlot i { s.slots i with sock := none }).Mine c i := by
      rw [State.Mine, hslot]
      exact hmine
    have howes' : ((s.closeFd c d).setSlot i { s.slots i with sock := none }).Owes c none :=
      (closedBy_closeFd d).trans (by rw [howes.2])
    have hst : (s.conns c).Accounted
        ((s.closeFd c d).setSlot i { s.slots i with sock := none }) c := by
      rcases hc with hc | hc
      · rw [hc]
        exact ⟨hmine', by rw [hslot]; exact howes'⟩
      · rw [hc]
        exact ⟨hmine', by rw [hslot]; exact howes'⟩
    refine ⟨hs.fresh, own_closeFd hs howes.1, fun c' => ?_⟩
    by_cases hcc : c' = c
    · rw [hcc]
      exact hst
    · exact hF.accounted hcc (hs.conn c')

theorem ended_closeSock (hs : Accounted s) {sock : Option ℕ} (howes : s.Owes c sock)
    (hborn : s.conns c ≠ .unborn) (busy : Option ℕ) :
    Accounted { (s.closeSock c sock).setConn c .ended with busy := busy } := by
  cases sock with
  | none => exact hs.update (Frame.refl c s) hborn rfl rfl hs.own .ended howes busy
  | some d =>
    have hst : Status.ended.Accounted (s.closeFd c d) c :=
      (closedBy_closeFd d).trans (by rw [howes.2])
    exact hs.update (frame_closeFd (.inl howes.1)) hborn rfl rfl (own_closeFd hs howes.1) .ended hst
      busy

theorem owes_setSlot {i : Fin 4} {slot : Slot} {sock : Option ℕ} (h : s.Owes c sock) :
    (s.setSlot i slot).Owes c sock := by
  cases sock with
  | none => exact h
  | some d => exact h

theorem accounted_accept (hs : Accounted s) {d : ℕ} (hd : s.fds d = none) :
    Accounted (s.accept d) where
  fresh := fresh_accept hs.fresh d
  own := hs.own
  conn c := by
    show Status.Accounted _ c (Function.update s.conns s.next (.accepted d) c)
    by_cases hc : c = s.next
    · have hfresh : s.closedBy s.next = 0 := hs.at_status (hs.fresh s.next le_rfl)
      rw [hc, Function.update_self]
      exact ⟨Function.update_self .., hfresh⟩
    · rw [Function.update_of_ne hc]
      exact (frame_accept hd).accounted hc (hs.conn c)

/-- **The accounts through a step.** -/
theorem accounted_step {a : Act} (hs : Accounted s) (ha : FailsEarly s a) (h : step s a = some s') :
    Accounted s' := by
  cases Step.of_step h with
  | accept d hbusy hd => exact accounted_accept hs hd
  | alloc c d i hc hi =>
    have hF := frame_setSlot (c := c) (fun c' _ => not_mine_of_unused hi c') ⟨true, some 0, c⟩
    exact hs.update hF (by simp [hc]) rfl rfl hs.own (.allocated d i)
      ⟨mine_setSlot rfl rfl, hs.at_status hc⟩ s.busy
  | refuse c d hc =>
    have hst := hs.at_status hc
    exact hs.update (Frame.refl c s) (by simp [hc]) rfl rfl hs.own (.refused d) hst s.busy
  | drop c d hc =>
    have howes : s.Owes c (some d) := hs.at_status hc
    exact ended_closeSock hs howes (by simp [hc]) none
  | store c d i hc =>
    obtain ⟨hmine, howes⟩ := hs.at_status hc
    have hF := frame_setSlot (not_mine_of_mine hmine) { s.slots i with sock := some d }
    have hslot : ((s.setSlot i { s.slots i with sock := some d }).slots i).sock = some d := by
      simp [State.setSlot]
    exact hs.update hF (by simp [hc]) rfl rfl hs.own (.stored i)
      ⟨mine_setSlot hmine.1 hmine.2, by rw [hslot]; exact owes_setSlot howes⟩ s.busy
  | spawn c i hc =>
    have hst := hs.at_status hc
    exact hs.update (Frame.refl c s) (by simp [hc]) rfl rfl hs.own (.born i) hst none
  | copy c i hc =>
    obtain ⟨hmine, howes⟩ := hs.at_status hc
    exact hs.update (Frame.refl c s) (by simp [hc]) rfl rfl hs.own (.greeting i (s.slots i).sock)
      ⟨hmine, rfl, howes⟩ s.busy
  | greet c i sock fails s₁ ev hc hsend =>
    obtain rfl : fails = false := ha
    -- nothing fails here, so nothing is closed
    obtain rfl : s₁ = s := by
      rcases sendTo_cases hsend with ⟨rfl, -⟩ | ⟨d, rfl, -⟩ | ⟨d, -, -, hf, -⟩
      · rfl
      · rfl
      · cases hf
    have hst := hs.at_status hc
    exact hs.update (Frame.refl c s₁) (by simp [hc]) rfl rfl hs.own (.serving i sock) hst s₁.busy
  | recv c => exact hs
  | readError c i sock hc =>
    have hst := hs.at_status hc
    exact hs.update (Frame.refl c s) (by simp [hc]) rfl rfl hs.own (.leaving i sock) hst s.busy
  | free c i sock hc =>
    obtain ⟨hmine, -, howes⟩ := hs.at_status hc
    have hF := frame_setSlot (not_mine_of_mine hmine) ⟨false, some 0, c⟩
    exact hs.update hF (by simp [hc]) rfl rfl hs.own (.freed sock) (owes_setSlot howes) s.busy
  | close c sock hc =>
    exact ended_closeSock hs (hs.at_status hc) (by simp [hc]) (s.closeSock c sock).busy
  | send fails s₁ ev hsend =>
    have hinv := pscSend_invariant (I := fun s₁ => Accounted s₁ ∧ s₁.conns = s.conns)
      (P := fun _ => True)
      (fun s₁ i s₂ ev h₁ hused hsend => by
        have hs₂ := accounted_sendTo h₁.1 hused (h₁.2 ▸ ha i) hsend
        exact ⟨⟨hs₂, (sendTo_keeps hsend).1.trans h₁.2⟩, fun _ _ => trivial⟩)
      (List.finRange 4) ⟨hs, rfl⟩ hsend
    exact hinv.1.1

theorem accounted_initial (hs : Initial s) : Accounted s where
  fresh c _ := hs.conns c
  own k hk := by rw [hs.closes] at hk; cases hk
  conn c := by
    rw [hs.conns]
    show s.closedBy c = 0
    rw [State.closedBy, hs.closes]
    rfl

theorem closedBy_le_one (hs : Accounted s) (c : ℕ) : s.closedBy c ≤ 1 := by
  have howes : ∀ {sock}, s.Owes c sock → s.closedBy c ≤ 1 := by
    intro sock h
    cases sock with
    | none => exact h.le
    | some d => exact h.2.le.trans zero_le_one
  have hst := hs.conn c
  cases hc : s.conns c with
  | unborn => rw [hc] at hst; exact (show s.closedBy c = 0 from hst).le.trans zero_le_one
  | accepted d => rw [hc] at hst; exact howes (show s.Owes c (some d) from hst)
  | refused d => rw [hc] at hst; exact howes (show s.Owes c (some d) from hst)
  | allocated d i => rw [hc] at hst; exact howes hst.2
  | stored i => rw [hc] at hst; exact howes hst.2
  | born i => rw [hc] at hst; exact howes hst.2
  | greeting i sock => rw [hc] at hst; exact howes hst.2.2
  | serving i sock => rw [hc] at hst; exact howes hst.2.2
  | leaving i sock => rw [hc] at hst; exact howes hst.2.2
  | freed sock => rw [hc] at hst; exact howes hst
  | ended => rw [hc] at hst; exact (show s.closedBy c = 1 from hst).le

/-- **Closed once.** In the runs in which a send fails only before the thread of its client has
copied the descriptor, each descriptor is closed by its own connection, at most once, and once when
the connection has ended. -/
theorem closedOnce_of_failsEarly (h : Reach step FailsEarly Initial s) : ClosedOnce s := by
  have hs : Accounted s := h.invariant (fun _ => accounted_initial)
    fun _ _ _ hs ha hstep => accounted_step hs ha hstep
  exact ⟨hs.own, closedBy_le_one hs, fun c hc => hs.at_status hc⟩

end Closes

/-- A broadcast fails before the thread of the client has copied the descriptor; the thread then has
none to close. -/
theorem early_failure_closed_once :
    ∃ s, Reach step FailsEarly Initial s ∧ s.conns 0 = .ended ∧ ClosedOnce s := by
  obtain ⟨s₁, h₁, hstored⟩ : ∃ s, runs step (listening 3) [.accept 5, .alloc 0, .store 0] = some s ∧
      s.conns 0 = .stored 0 := ⟨_, rfl, rfl⟩
  have hs₁ : Reach step FailsEarly Initial s₁ :=
    reach_of_runs (.start (initial_listening 3)) (by simp [FailsEarly]) h₁
  have hfails : FailsEarly s₁ (.send fun i => i == 0) := by
    intro i hi
    exact ⟨0, .inl (beq_iff_eq.mp hi ▸ hstored)⟩
  obtain ⟨s₂, h₂, s₃, h₃, hended⟩ : ∃ s₂, step s₁ (.send fun i => i == 0) = some s₂ ∧
      ∃ s₃, runs step s₂ [.spawn 0, .copy 0, .greet 0 false, .recv 0 false, .free 0, .close 0] =
        some s₃ ∧ s₃.conns 0 = .ended := by
    cases h₁
    exact ⟨_, rfl, _, rfl, rfl⟩
  have hs₃ : Reach step FailsEarly Initial s₃ :=
    reach_of_runs (.next _ hs₁ hfails h₂) (by simp [FailsEarly]) h₃
  exact ⟨s₃, hs₃, hended, closedOnce_of_failsEarly hs₃⟩

/-! The broadcast fails at the first of two clients, whose thread closes the descriptor again when
the second has been given its number. -/

/-- A connection to which a broadcast fails, and which ends after the next one has come. -/
def lateFailure : List Act :=
  .accept 5 :: connection 0 ++ [.send fun i => i == 0, .accept 5, .recv 0 false, .free 0, .close 0]

/-- The close of the first connection hits the descriptor of the second. -/
theorem newer_connection_closed :
    ∃ s, Reach step (fun _ _ => True) Initial s ∧
      s.closes = [⟨0, 5, some (.conn 0)⟩, ⟨0, 5, some (.conn 1)⟩] ∧ ¬ClosedOnce s := by
  obtain ⟨s, hs, hcloses⟩ : ∃ s, runs step (listening 3) lateFailure = some s ∧
      s.closes = [⟨0, 5, some (.conn 0)⟩, ⟨0, 5, some (.conn 1)⟩] := ⟨_, rfl, by decide⟩
  refine ⟨s, reach_of_runs (.start (initial_listening 3)) (fun _ _ _ => trivial) hs, hcloses, ?_⟩
  intro h
  have hown := h.own ⟨0, 5, some (.conn 1)⟩ (by simp [hcloses])
  simp at hown

end Psc.Net
