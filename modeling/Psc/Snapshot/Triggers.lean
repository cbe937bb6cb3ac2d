import Psc.Snapshot.Reader

/-!
# Snapshot triggers

A trigger latches the writer's burst address (`ps_io.vhd`), and the software polls the latches every
100 ms (`snapshots.c`): a latch that differs from what it held at the last trigger makes its slot
active, and the waveform is sent `posttrigpts / 1000` polls later.

1. `slotStep` is what one poll does to one of the twenty slots, and `wait_slots` how a slot that
   becomes active goes through its wait.
2. A slot compares the latch with what it read at its last poll in rest (`addr_slots`), so the ring
   position is the only thing that tells one trigger from another.
3. `noneLost_iff`: a trigger is served exactly if the writer has begun a burst before it, and has
   gone on since the last recorded trigger by another distance than whole revolutions of the ring.
-/

namespace Psc.Snapshot

open Clocked

/-! ## The software -/

/-- The five types of triggers. -/
inductive Kind where
  | usr | flt | err | inj | evr
  deriving DecidableEq

/-- `TriggerInfo`. -/
structure TriggerInfo where
  addr : BitVec 32
  addrLast : BitVec 32
  pretrigpts : ℕ
  posttrigpts : ℕ
  active : Bool
  postdlycnt : ℕ
  sendbuf : Bool
  msgID : ℕ
  channum : ℕ

/-- The message of the first channel: `MSGUSRCH1` to `MSGEVRCH1`. -/
def Kind.msg : Kind → ℕ
  | usr => 60
  | flt => 70
  | err => 80
  | inj => 90
  | evr => 100

def Kind.pretrigpts : Kind → ℕ
  | inj => 0
  | _ => 50000

def Kind.posttrigpts : Kind → ℕ
  | inj => 8000
  | _ => 50000

/-- `InitTriggerInfo`. -/
def initTriggerInfo (kind : Kind) (ps : Ps) : TriggerInfo where
  addr := 0
  addrLast := 0
  pretrigpts := kind.pretrigpts
  posttrigpts := kind.posttrigpts
  active := false
  postdlycnt := 0
  sendbuf := false
  msgID := kind.msg + ps.idx
  channum := ps.idx + 1

/-- `ProcessTrigger`. -/
def processTrigger (trig : TriggerInfo) : TriggerInfo :=
  let t :=
    if trig.addr ≠ trig.addrLast ∧ trig.active = false then
      { trig with active := true, addrLast := trig.addr, postdlycnt := 0 }
    else trig
  if t.active then
    if t.postdlycnt < t.posttrigpts / 1000 then { t with postdlycnt := t.postdlycnt + 1 }
    else { t with sendbuf := true }
  else t

/-- `CheckforTriggers`; `bufptr` is what is read from the latch of each slot. -/
def checkforTriggers (trig : Kind → Ps → TriggerInfo) (bufptr : Kind → Ps → BitVec 32) (kind : Kind)
    (ps : Ps) : TriggerInfo :=
  processTrigger
    (if (trig kind ps).active = false then { trig kind ps with addr := bufptr kind ps }
    else trig kind ps)

/-- `SendWfmData`, but for the waveform. -/
def sendWfmData (trig : TriggerInfo) : TriggerInfo :=
  { trig with sendbuf := false, active := false }

/-- One turn of the loop in `snapshot_push`. -/
def snapshotPush (trig : Kind → Ps → TriggerInfo) (bufptr : Kind → Ps → BitVec 32) (kind : Kind)
    (ps : Ps) : TriggerInfo :=
  if (checkforTriggers trig bufptr kind ps).sendbuf then
    sendWfmData (checkforTriggers trig bufptr kind ps)
  else checkforTriggers trig bufptr kind ps

/-- The order in which the slots are looked at. -/
def slotOrder : List (Kind × Ps) :=
  [Ps.ps1, .ps2, .ps3, .ps4].flatMap fun ps =>
    [Kind.usr, .flt, .err, .inj, .evr].map fun kind => (kind, ps)

/-- The messages that the turn sends. -/
def messages (trig : Kind → Ps → TriggerInfo) (bufptr : Kind → Ps → BitVec 32) : List ℕ :=
  slotOrder.filterMap fun (kind, ps) =>
    if (checkforTriggers trig bufptr kind ps).sendbuf then
      some (checkforTriggers trig bufptr kind ps).msgID
    else none

/-! ## One slot -/

/-- A slot after the read and `ProcessTrigger`. -/
def slotCheck (t : TriggerInfo) (bufptr : BitVec 32) : TriggerInfo :=
  processTrigger (if t.active = false then { t with addr := bufptr } else t)

/-- A slot after a turn. -/
def slotStep (t : TriggerInfo) (bufptr : BitVec 32) : TriggerInfo :=
  if (slotCheck t bufptr).sendbuf then sendWfmData (slotCheck t bufptr) else slotCheck t bufptr

theorem run_snapshotPush (trig : Kind → Ps → TriggerInfo) (bufptr : ℕ → Kind → Ps → BitVec 32)
    (k : ℕ) (kind : Kind) (ps : Ps) :
    run snapshotPush trig bufptr k kind ps =
      run slotStep (trig kind ps) (fun j => bufptr j kind ps) k := by
  induction k with
  | zero => rfl
  | succ k ih =>
    rw [run_succ, run_succ, ← ih]
    rfl

/-- What holds of a slot between turns. -/
structure SlotInv (kind : Kind) (ps : Ps) (t : TriggerInfo) : Prop where
  sendbuf : t.sendbuf = false
  addr : t.addrLast = t.addr
  posttrigpts : t.posttrigpts = kind.posttrigpts
  msgID : t.msgID = kind.msg + ps.idx

/-- The number of polls that a slot waits. -/
def Kind.polls (kind : Kind) : ℕ := kind.posttrigpts / 1000

theorem Kind.polls_pos (kind : Kind) : 0 < kind.polls := by
  cases kind <;> decide

section Slot

variable {kind : Kind} {ps : Ps} {t : TriggerInfo}

theorem slotInv_init (kind : Kind) (ps : Ps) : SlotInv kind ps (initTriggerInfo kind ps) :=
  ⟨rfl, rfl, rfl, rfl⟩

theorem slotCheck_of_ne (h : SlotInv kind ps t) (ht : t.active = false) {bufptr : BitVec 32}
    (hne : bufptr ≠ t.addr) : slotCheck t bufptr =
      { t with addr := bufptr, addrLast := bufptr, active := true, postdlycnt := 1 } := by
  have hpos : 0 < t.posttrigpts / 1000 := h.posttrigpts ▸ kind.polls_pos
  have hne' : bufptr ≠ t.addrLast := h.addr ▸ hne
  simp [slotCheck, processTrigger, ht, hne', hpos]

theorem slotCheck_of_eq (h : SlotInv kind ps t) (ht : t.active = false) :
    slotCheck t t.addr = t := by
  have hsame : ¬(t.addr ≠ t.addrLast ∧ t.active = false) := fun hc => hc.1 h.addr.symm
  show processTrigger (if t.active = false then t else t) = t
  rw [ite_self]
  unfold processTrigger
  simp only [if_neg hsame]
  rw [if_neg (by simp [ht])]

theorem slotCheck_of_lt (h : SlotInv kind ps t) (ht : t.active = true)
    (hlt : t.postdlycnt < kind.polls) (bufptr : BitVec 32) :
    slotCheck t bufptr = { t with postdlycnt := t.postdlycnt + 1 } := by
  have hlt' : t.postdlycnt < t.posttrigpts / 1000 := h.posttrigpts ▸ hlt
  simp [slotCheck, processTrigger, ht, hlt']

theorem slotCheck_of_ge (h : SlotInv kind ps t) (ht : t.active = true)
    (hge : kind.polls ≤ t.postdlycnt) (bufptr : BitVec 32) :
    slotCheck t bufptr = { t with sendbuf := true } := by
  have hge' : ¬t.postdlycnt < t.posttrigpts / 1000 := not_lt.mpr (h.posttrigpts ▸ hge)
  simp [slotCheck, processTrigger, ht, hge']

theorem slotInv_step (h : SlotInv kind ps t) (bufptr : BitVec 32) :
    SlotInv kind ps (slotStep t bufptr) := by
  unfold slotStep
  cases ht : t.active with
  | false =>
    by_cases hne : bufptr = t.addr
    · rw [hne, slotCheck_of_eq h ht, if_neg (by simp [h.sendbuf])]
      exact h
    · rw [slotCheck_of_ne h ht hne, if_neg (by simp [h.sendbuf])]
      exact ⟨h.sendbuf, rfl, h.posttrigpts, h.msgID⟩
  | true =>
    rcases Nat.lt_or_ge t.postdlycnt kind.polls with hlt | hge
    · rw [slotCheck_of_lt h ht hlt, if_neg (by simp [h.sendbuf])]
      exact ⟨h.sendbuf, h.addr, h.posttrigpts, h.msgID⟩
    · rw [slotCheck_of_ge h ht hge, if_pos rfl]
      exact ⟨rfl, h.addr, h.posttrigpts, h.msgID⟩

theorem slotInv_run (bufptr : ℕ → BitVec 32) (k : ℕ) :
    SlotInv kind ps (run slotStep (initTriggerInfo kind ps) bufptr k) := by
  induction k with
  | zero => exact slotInv_init kind ps
  | succ k ih => exact slotInv_step ih (bufptr k)

theorem addr_slotStep (h : SlotInv kind ps t) (bufptr : BitVec 32) :
    (slotStep t bufptr).addr = if t.active = false then bufptr else t.addr := by
  unfold slotStep
  cases ht : t.active with
  | false =>
    by_cases hne : bufptr = t.addr
    · rw [hne, slotCheck_of_eq h ht, if_neg (by simp [h.sendbuf]), if_pos rfl]
    · rw [slotCheck_of_ne h ht hne, if_neg (by simp [h.sendbuf]), if_pos rfl]
  | true =>
    rcases Nat.lt_or_ge t.postdlycnt kind.polls with hlt | hge
    · rw [slotCheck_of_lt h ht hlt, if_neg (by simp [h.sendbuf]), if_neg (by simp)]
    · rw [slotCheck_of_ge h ht hge, if_pos rfl, if_neg (by simp)]
      rfl

/-- The wait: an active slot is counted up to its number of polls and is then sent, once, and goes
to rest. -/
theorem wait_run (bufptr : ℕ → BitVec 32) (h : SlotInv kind ps t) (ht : t.active = true) :
    ∀ {d : ℕ}, t.postdlycnt + d = kind.polls →
      (∀ j ≤ d, run slotStep t bufptr j = { t with postdlycnt := t.postdlycnt + j } ∧
        (slotCheck (run slotStep t bufptr j) (bufptr j)).sendbuf = decide (j = d)) ∧
      (run slotStep t bufptr (d + 1)).active = false := by
  intro d hd
  have hinv : ∀ j, SlotInv kind ps { t with postdlycnt := t.postdlycnt + j } := fun j =>
    ⟨h.sendbuf, h.addr, h.posttrigpts, h.msgID⟩
  have hcount : ∀ j ≤ d, run slotStep t bufptr j = { t with postdlycnt := t.postdlycnt + j } := by
    intro j
    induction j with
    | zero => intro _; rfl
    | succ j ih =>
      intro hj
      have hcheck := slotCheck_of_lt (hinv j) ht (by show t.postdlycnt + j < _; omega) (bufptr j)
      rw [run_succ, ih (by omega)]
      unfold slotStep
      rw [hcheck, if_neg (by simp [h.sendbuf])]
      simp [Nat.add_assoc]
  have hlast := slotCheck_of_ge (hinv d) ht (by show _ ≤ t.postdlycnt + d; omega) (bufptr d)
  refine ⟨?_, ?_⟩
  · intro j hj
    refine ⟨hcount j hj, ?_⟩
    rw [hcount j hj]
    rcases Nat.lt_or_eq_of_le hj with hlt | rfl
    · rw [slotCheck_of_lt (hinv j) ht (by show t.postdlycnt + j < _; omega)]
      simpa [h.sendbuf] using hlt.ne
    · rw [hlast]
      simp
  · rw [run_succ, hcount d le_rfl]
    unfold slotStep
    rw [hlast, if_pos rfl]
    rfl

/-- A slot that waits, in its `j`-th poll after the one that has activated it. -/
def TriggerInfo.waiting (t : TriggerInfo) (bufptr : BitVec 32) (j : ℕ) : TriggerInfo :=
  { t with addr := bufptr, addrLast := bufptr, active := true, postdlycnt := j }

/-- A slot in rest that reads another latch: it waits until it is sent in the last poll, and only
then, and is in rest after it. -/
theorem activation_run (bufptr : ℕ → BitVec 32) (h : SlotInv kind ps t) (ht : t.active = false)
    (hne : bufptr 0 ≠ t.addr) :
    (∀ j, 0 < j → j ≤ kind.polls → run slotStep t bufptr j = t.waiting (bufptr 0) j) ∧
      (∀ j ≤ kind.polls,
        (slotCheck (run slotStep t bufptr j) (bufptr j)).sendbuf = decide (j = kind.polls)) ∧
      (run slotStep t bufptr (kind.polls + 1)).active = false := by
  have hcheck := slotCheck_of_ne h ht hne
  have hpos := kind.polls_pos
  -- the wait starts after this poll, with a count of one
  have hnext : run slotStep t bufptr 1 = t.waiting (bufptr 0) 1 := by
    show slotStep t (bufptr 0) = _
    unfold slotStep
    rw [hcheck, if_neg (by simp [h.sendbuf])]
    rfl
  have hinv : SlotInv kind ps (t.waiting (bufptr 0) 1) := ⟨h.sendbuf, rfl, h.posttrigpts, h.msgID⟩
  obtain ⟨hwait, hend⟩ := wait_run (fun j => bufptr (1 + j)) hinv rfl (d := kind.polls - 1)
    (by show 1 + (kind.polls - 1) = _; omega)
  have hshift : ∀ j, run slotStep t bufptr (1 + j) =
      run slotStep (t.waiting (bufptr 0) 1) (fun j => bufptr (1 + j)) j := by
    intro j
    rw [run_add, hnext]
  refine ⟨?_, ?_, ?_⟩
  · intro j hj hjm
    obtain ⟨i, rfl⟩ := Nat.exists_eq_add_of_le (Nat.succ_le_of_lt hj)
    rw [hshift i, (hwait i (by omega)).1]
    rfl
  · intro j hjm
    rcases Nat.eq_zero_or_pos j with rfl | hj
    · rw [run_zero, hcheck]
      simpa [h.sendbuf] using hpos.ne
    · obtain ⟨i, rfl⟩ := Nat.exists_eq_add_of_le (Nat.succ_le_of_lt hj)
      rw [hshift i, (hwait i (by omega)).2]
      exact decide_eq_decide.mpr (by omega)
  · rw [show kind.polls + 1 = 1 + (kind.polls - 1 + 1) by omega, hshift]
    exact hend

end Slot

/-! ## The latches -/

/-- The trigger lines of `ps_io`. The four EVR slots share one line. -/
inductive Line where
  | usr (ps : Ps) | flt (ps : Ps) | err (ps : Ps) | inj (ps : Ps) | evr
  deriving DecidableEq

/-- The line whose latch a slot reads. -/
def Kind.line : Kind → Ps → Line
  | usr, ps => .usr ps
  | flt, ps => .flt ps
  | err, ps => .err ps
  | inj, ps => .inj ps
  | evr, _ => .evr

/-- The registers of "latch the buffer address and timestamp on trigger", without time stamps. -/
structure Latches where
  trigPrev : Line → Bool
  bufptr : Line → BitVec 32

/-- A trigger line rises. -/
def Latches.rises (l : Latches) (trig : Line → Bool) (line : Line) : Bool :=
  trig line && !l.trigPrev line

/-- One clock; `addrPtr` is `ss_buf_stat.addr_ptr`. -/
def Latches.step (l : Latches) (plReset : Bool) (trig : Line → Bool) (addrPtr : BitVec 32) :
    Latches :=
  if plReset then { l with bufptr := fun _ => 0 }
  else
    { trigPrev := trig
      bufptr := fun line => if l.rises trig line then addrPtr else l.bufptr line }

/-- The writer, its memory and the latches. -/
structure Hw where
  sys : Sys
  latches : Latches

/-- The inputs: those of the writer, and the trigger lines. -/
structure HwInput where
  writer : Input
  trig : Line → Bool

/-- One clock. -/
def hwStep (x : Hw) (i : HwInput) : Hw where
  sys := sysStep x.sys i.writer
  latches := x.latches.step i.writer.reset i.trig x.sys.regs.addrPtr

/-- After configuration and reset: no burst has been begun, and the latches are cleared. -/
structure PowerUp (x : Hw) : Prop where
  configured : Configured x.sys
  addrPtr : x.sys.regs.addrPtr = 0
  bufptr : x.latches.bufptr = fun _ => 0

theorem addrPtr_step {s : State} {i : Input} (hr : i.reset = false) (hnot : accepts s i = false) :
    (step s i).addrPtr = s.addrPtr := by
  rw [step_of_not_reset hr]
  cases hs : s.state with
  | idle =>
    have htrig : (i.trigger && !s.prevTrigger) = false := by
      simpa [accepts, hr, hs] using hnot
    rw [htrig]
    rfl
  | address => dsimp only; split_ifs <;> rfl
  | word w => dsimp only; split_ifs <;> rfl
  | awaitresp => dsimp only; split_ifs <;> rfl

section Latch

variable (x₀ : Hw) (inp : ℕ → HwInput) (line : Line)

/-- The line rises at clock `n`. -/
def risesAt (n : ℕ) : Bool := (run hwStep x₀ inp n).latches.rises (inp n).trig line

/-- The number of bursts begun before clock `n`. -/
def bursts (n : ℕ) : ℕ := triggers x₀.sys (fun k => (inp k).writer) n

/-- The number of bursts begun when the line last rose before clock `n`; `0` if it never did. -/
def latchedBursts : ℕ → ℕ
  | 0 => 0
  | n + 1 => if risesAt x₀ inp line n then bursts x₀ inp n else latchedBursts n

/-- What the writer shows after `n` bursts were begun. -/
def ptrOf (n : ℕ) : BitVec 32 := if n = 0 then 0 else wordAddr ((n - 1) % ringSlots) 0

variable {x₀ inp}

theorem run_sys (n : ℕ) :
    (run hwStep x₀ inp n).sys = run sysStep x₀.sys (fun k => (inp k).writer) n := by
  induction n with
  | zero => rfl
  | succ n ih =>
    rw [run_succ, run_succ, ← ih]
    rfl

theorem risesAt_of_low {line : Line} {n : ℕ} (hlow : (inp n).trig line = false) :
    risesAt x₀ inp line n = false := by
  unfold risesAt Latches.rises
  rw [hlow, Bool.false_and]

variable (h : PowerUp x₀) (hr : ∀ n, (inp n).writer.reset = false)

include h hr

/-- The pointer follows the number of bursts. -/
theorem addrPtr_run (n : ℕ) :
    (run hwStep x₀ inp n).sys.regs.addrPtr = ptrOf (bursts x₀ inp n) := by
  rw [run_sys]
  unfold ptrOf bursts
  split_ifs with h0
  · -- before the first burst it keeps its value
    induction n with
    | zero => exact h.addrPtr
    | succ n ih =>
      have hmono : triggers x₀.sys (fun k => (inp k).writer) n ≤
          triggers x₀.sys (fun k => (inp k).writer) (n + 1) := tickCount_le_succ n
      have hnot : taken x₀.sys (fun k => (inp k).writer) n = false := by
        by_contra ht
        have hsucc : triggers x₀.sys (fun k => (inp k).writer) (n + 1) = _ :=
          tickCount_succ_of_tick (by simpa using ht)
        omega
      have hsame : (run sysStep x₀.sys (fun k => (inp k).writer) (n + 1)).regs.addrPtr =
          (run sysStep x₀.sys (fun k => (inp k).writer) n).regs.addrPtr :=
        addrPtr_step (hr n) hnot
      rw [hsame]
      exact ih (by omega)
  · exact (inv_run h.configured hr n).addrPtr (Nat.pos_of_ne_zero h0)

/-- A latch holds the pointer of the last rise of its line. -/
theorem bufptr_run (n : ℕ) :
    (run hwStep x₀ inp n).latches.bufptr line = ptrOf (latchedBursts x₀ inp line n) := by
  induction n with
  | zero =>
    show x₀.latches.bufptr line = _
    rw [h.bufptr]
    rfl
  | succ n ih =>
    have hstep : (run hwStep x₀ inp (n + 1)).latches.bufptr line =
        if risesAt x₀ inp line n then (run hwStep x₀ inp n).sys.regs.addrPtr
        else (run hwStep x₀ inp n).latches.bufptr line := by
      rw [run_succ]
      show ((run hwStep x₀ inp n).latches.step (inp n).writer.reset (inp n).trig _).bufptr line = _
      unfold Latches.step
      rw [if_neg (by simp [hr n])]
      rfl
    rw [hstep, latchedBursts]
    split_ifs
    · exact addrPtr_run h hr n
    · exact ih

end Latch

/-! ## Messages -/

theorem msg_inj {kind kind' : Kind} {ps ps' : Ps}
    (h : kind.msg + ps.idx = kind'.msg + ps'.idx) : kind = kind' ∧ ps = ps' := by
  have hmod : ∀ c : Kind, c.msg % 10 = 0 := by
    intro c
    cases c <;> rfl
  have h₁ := ps.idx_lt
  have h₂ := ps'.idx_lt
  have h₃ := hmod kind
  have h₄ := hmod kind'
  have hmsg : kind.msg = kind'.msg := by omega
  have hidx : ps.idx = ps'.idx := by omega
  constructor
  · cases kind <;> cases kind' <;> first | rfl | simp [Kind.msg] at hmsg
  · exact Ps.idx_injective hidx

theorem count_filterMap_msg (c : Kind → Ps → Bool) (kind : Kind) (ps : Ps) :
    ∀ {l : List (Kind × Ps)}, l.Nodup →
      (l.filterMap fun x => if c x.1 x.2 then some (x.1.msg + x.2.idx) else none).count
        (kind.msg + ps.idx) = if (kind, ps) ∈ l ∧ c kind ps = true then 1 else 0 := by
  intro l
  induction l with
  | nil => intro _; simp
  | cons x l ih =>
    intro hnodup
    obtain ⟨hx, hl⟩ := List.nodup_cons.mp hnodup
    rw [List.filterMap_cons]
    by_cases heq : x = (kind, ps)
    · subst heq
      have hrest := ih hl
      rw [if_neg fun h => hx h.1] at hrest
      cases hc : c kind ps with
      | true => simpa using hrest
      | false => simpa using hrest
    · have hmem : (kind, ps) ∈ x :: l ↔ (kind, ps) ∈ l := by
        simp [Ne.symm heq]
      rw [if_congr (and_congr_left' hmem) rfl rfl, ← ih hl]
      cases hc : c x.1 x.2 with
      | true =>
        have hne : x.1.msg + x.2.idx ≠ kind.msg + ps.idx := by
          intro h
          obtain ⟨h₁, h₂⟩ := msg_inj h
          exact heq (Prod.ext h₁ h₂)
        simp [hne]
      | false => simp

theorem nodup_slotOrder : slotOrder.Nodup := by decide

theorem mem_slotOrder (kind : Kind) (ps : Ps) : (kind, ps) ∈ slotOrder := by
  cases kind <;> cases ps <;> decide

theorem count_messages {trig : Kind → Ps → TriggerInfo} {bufptr : Kind → Ps → BitVec 32}
    (hmsg : ∀ kind ps, (checkforTriggers trig bufptr kind ps).msgID = kind.msg + ps.idx)
    (kind : Kind) (ps : Ps) : (messages trig bufptr).count (kind.msg + ps.idx) =
      if (checkforTriggers trig bufptr kind ps).sendbuf then 1 else 0 := by
  have h := count_filterMap_msg (fun kind ps => (checkforTriggers trig bufptr kind ps).sendbuf)
    kind ps nodup_slotOrder
  unfold messages
  simp only [hmsg]
  rw [h]
  simp [mem_slotOrder]

/-! ## Polls -/

section Polls

variable (x₀ : Hw) (inp : ℕ → HwInput) (reads : ℕ → Kind → Ps → ℕ)

/-- What is read from the latch of each slot in poll `k`, at clock `reads k kind ps`. -/
def bufptrAt (k : ℕ) (kind : Kind) (ps : Ps) : BitVec 32 :=
  (run hwStep x₀ inp (reads k kind ps)).latches.bufptr (kind.line ps)

/-- The slots before poll `k`. -/
def slots (k : ℕ) : Kind → Ps → TriggerInfo :=
  run snapshotPush initTriggerInfo (bufptrAt x₀ inp reads) k

variable (kind : Kind) (ps : Ps)

/-- The last poll before `k` that found the slot in rest, and so read its latch. -/
def lastRest : ℕ → Option ℕ
  | 0 => none
  | k + 1 => if (slots x₀ inp reads k kind ps).active = false then some k else lastRest k

/-- The line of the slot has risen since that poll, or since power-up if there was none. -/
def Triggered (k : ℕ) : Prop :=
  ∃ e, (∀ j ∈ lastRest x₀ inp reads kind ps k, reads j kind ps ≤ e) ∧ e < reads k kind ps ∧
    risesAt x₀ inp (kind.line ps) e = true

/-- Poll `k` activates the slot, and from it to the poll that sets the slot to rest again its
message is sent once, in that last poll. -/
def Served (k : ℕ) : Prop :=
  (checkforTriggers (slots x₀ inp reads k) (bufptrAt x₀ inp reads k) kind ps).active = true ∧
  ∃ m, k ≤ m ∧
    (∀ j, k ≤ j → j ≤ m → (messages (slots x₀ inp reads j) (bufptrAt x₀ inp reads j)).count
      (kind.msg + ps.idx) = if j = m then 1 else 0) ∧
    (∀ j, k < j → j ≤ m → (slots x₀ inp reads j kind ps).active = true) ∧
    (slots x₀ inp reads (m + 1) kind ps).active = false

/-- No trigger is lost at poll `k`: a slot in rest whose line has risen is served. -/
def NoneLost (k : ℕ) : Prop :=
  (slots x₀ inp reads k kind ps).active = false → Triggered x₀ inp reads kind ps k →
    Served x₀ inp reads kind ps k

/-- The number of bursts at the trigger that the slot has recorded, `0` if there is none. -/
def recorded (k : ℕ) : ℕ :=
  match lastRest x₀ inp reads kind ps k with
  | none => 0
  | some j => latchedBursts x₀ inp (kind.line ps) (reads j kind ps)

/-- A trigger after `n` bursts is told from one after `n'`: a burst has been begun, and the ring has
not come round to the same position. -/
def NewPosition (n' n : ℕ) : Prop := n ≠ 0 ∧ (n' = 0 ∨ n % ringSlots ≠ n' % ringSlots)

end Polls

theorem wordAddr_ne_zero {t : ℕ} (ht : t < ringSlots) : wordAddr t 0 ≠ 0 := by
  intro h
  have hnat := congrArg BitVec.toNat h
  rw [toNat_wordAddr ht (by omega)] at hnat
  simp at hnat

/-- The pointers differ exactly if the position is new. -/
theorem ptrOf_ne_iff {n' n : ℕ} (hle : n' ≤ n) : ptrOf n ≠ ptrOf n' ↔ NewPosition n' n := by
  unfold ptrOf NewPosition
  rcases Nat.eq_zero_or_pos n with rfl | hn
  · obtain rfl : n' = 0 := by omega
    simp
  · rcases Nat.eq_zero_or_pos n' with rfl | hn'
    · rw [if_neg (by omega), if_pos rfl]
      simp only [true_or, and_true]
      exact ⟨fun _ => by omega, fun _ => wordAddr_ne_zero (slot_lt _)⟩
    · rw [if_neg (by omega), if_neg (by omega)]
      have hiff : wordAddr ((n - 1) % ringSlots) 0 = wordAddr ((n' - 1) % ringSlots) 0 ↔
          n % ringSlots = n' % ringSlots := by
        constructor
        · intro h
          have hmod := (wordAddr_inj (slot_lt _) (slot_lt _) (by omega) (by omega) h).1
          unfold ringSlots at hmod ⊢
          omega
        · intro h
          have hmod : (n - 1) % ringSlots = (n' - 1) % ringSlots := by
            unfold ringSlots at h ⊢
            omega
          rw [hmod]
      rw [ne_eq, hiff]
      constructor
      · intro h
        exact ⟨by omega, Or.inr h⟩
      · rintro ⟨-, h | h⟩
        · omega
        · exact h

section Served

variable {x₀ : Hw} {inp : ℕ → HwInput} {reads : ℕ → Kind → Ps → ℕ} {kind : Kind} {ps : Ps}

theorem slots_eq (k : ℕ) : slots x₀ inp reads k kind ps =
    run slotStep (initTriggerInfo kind ps) (fun j => bufptrAt x₀ inp reads j kind ps) k :=
  run_snapshotPush ..

theorem slotInv_slots (k : ℕ) : SlotInv kind ps (slots x₀ inp reads k kind ps) := by
  rw [slots_eq]
  exact slotInv_run ..

theorem slots_succ (k : ℕ) : slots x₀ inp reads (k + 1) kind ps =
    slotStep (slots x₀ inp reads k kind ps) (bufptrAt x₀ inp reads k kind ps) := by
  rw [slots_eq, slots_eq, run_succ]

/-- A slot keeps the latch of its last poll in rest. -/
theorem addr_slots (k : ℕ) : (slots x₀ inp reads k kind ps).addr =
    match lastRest x₀ inp reads kind ps k with
    | none => 0
    | some j => bufptrAt x₀ inp reads j kind ps := by
  induction k with
  | zero => rfl
  | succ k ih =>
    have hinv : SlotInv kind ps (slots x₀ inp reads k kind ps) := slotInv_slots k
    rw [slots_succ, addr_slotStep hinv, lastRest]
    split_ifs with hrest
    · rfl
    · exact ih

theorem checkforTriggers_slots (k : ℕ) :
    checkforTriggers (slots x₀ inp reads k) (bufptrAt x₀ inp reads k) kind ps =
      slotCheck (slots x₀ inp reads k kind ps) (bufptrAt x₀ inp reads k kind ps) :=
  rfl

theorem msgID_check (k : ℕ) (kind : Kind) (ps : Ps) :
    (checkforTriggers (slots x₀ inp reads k) (bufptrAt x₀ inp reads k) kind ps).msgID =
      kind.msg + ps.idx := by
  have hinv : SlotInv kind ps (slots x₀ inp reads k kind ps) := slotInv_slots k
  rw [checkforTriggers_slots, ← hinv.msgID]
  unfold slotCheck processTrigger
  simp only
  split_ifs <;> rfl

theorem count_slots (k : ℕ) :
    (messages (slots x₀ inp reads k) (bufptrAt x₀ inp reads k)).count (kind.msg + ps.idx) =
      if (slotCheck (slots x₀ inp reads k kind ps) (bufptrAt x₀ inp reads k kind ps)).sendbuf
      then 1 else 0 :=
  count_messages (msgID_check k) kind ps

theorem activates_iff {k : ℕ} (hrest : (slots x₀ inp reads k kind ps).active = false) :
    (checkforTriggers (slots x₀ inp reads k) (bufptrAt x₀ inp reads k) kind ps).active = true ↔
      bufptrAt x₀ inp reads k kind ps ≠ (slots x₀ inp reads k kind ps).addr := by
  have hinv : SlotInv kind ps (slots x₀ inp reads k kind ps) := slotInv_slots k
  rw [checkforTriggers_slots]
  constructor
  · intro hact heq
    rw [heq, slotCheck_of_eq hinv hrest, hrest] at hact
    simp at hact
  · intro hne
    rw [slotCheck_of_ne hinv hrest hne]

/-- The polls of a slot that becomes active in poll `k`: it is sent in the last one, and only then,
is active until then and in rest after it. -/
theorem wait_slots {k : ℕ} (hrest : (slots x₀ inp reads k kind ps).active = false)
    (hne : bufptrAt x₀ inp reads k kind ps ≠ (slots x₀ inp reads k kind ps).addr) :
    (∀ j, k ≤ j → j ≤ k + kind.polls →
      (slotCheck (slots x₀ inp reads j kind ps) (bufptrAt x₀ inp reads j kind ps)).sendbuf =
        decide (j = k + kind.polls)) ∧
    (∀ j, k < j → j ≤ k + kind.polls → (slots x₀ inp reads j kind ps).active = true) ∧
    (slots x₀ inp reads (k + kind.polls + 1) kind ps).active = false := by
  have hinv : SlotInv kind ps (slots x₀ inp reads k kind ps) := slotInv_slots k
  obtain ⟨hwait, hsend, hend⟩ :=
    activation_run (fun j => bufptrAt x₀ inp reads (k + j) kind ps) hinv hrest hne
  have hshift : ∀ j, slots x₀ inp reads (k + j) kind ps = run slotStep
      (slots x₀ inp reads k kind ps) (fun j => bufptrAt x₀ inp reads (k + j) kind ps) j := by
    intro j
    rw [slots_eq, slots_eq, run_add]
  refine ⟨?_, ?_, ?_⟩
  · intro j hkj hjm
    obtain ⟨i, rfl⟩ := Nat.exists_eq_add_of_le hkj
    rw [hshift i, hsend i (by omega)]
    exact decide_eq_decide.mpr (by omega)
  · intro j hkj hjm
    obtain ⟨i, rfl⟩ := Nat.exists_eq_add_of_le hkj.le
    rw [hshift i, hwait i (by omega) (by omega)]
    rfl
  · rw [Nat.add_assoc, hshift]
    exact hend

theorem served_of_rest {k : ℕ} (hrest : (slots x₀ inp reads k kind ps).active = false) :
    Served x₀ inp reads kind ps k ↔
      bufptrAt x₀ inp reads k kind ps ≠ (slots x₀ inp reads k kind ps).addr := by
  rw [← activates_iff hrest]
  constructor
  · rintro ⟨hact, -⟩
    exact hact
  · intro hact
    obtain ⟨hsend, hactive, hend⟩ := wait_slots hrest ((activates_iff hrest).mp hact)
    refine ⟨hact, k + kind.polls, by omega, ?_, hactive, hend⟩
    intro j hkj hjm
    rw [count_slots, hsend j hkj hjm]
    simp only [decide_eq_true_eq]

theorem latchedBursts_le (line : Line) (n : ℕ) :
    latchedBursts x₀ inp line n ≤ bursts x₀ inp n := by
  induction n with
  | zero => exact Nat.zero_le _
  | succ n ih =>
    have hmono : bursts x₀ inp n ≤ bursts x₀ inp (n + 1) := tickCount_le_succ n
    rw [latchedBursts]
    split_ifs <;> omega

theorem latchedBursts_mono (line : Line) : Monotone (latchedBursts x₀ inp line) := by
  apply monotone_nat_of_le_succ
  intro n
  have hle : latchedBursts x₀ inp line n ≤ bursts x₀ inp n := latchedBursts_le line n
  rw [latchedBursts]
  split_ifs <;> omega

theorem lastRest_lt {k j : ℕ} (hj : lastRest x₀ inp reads kind ps k = some j) : j < k := by
  induction k with
  | zero => simp [lastRest] at hj
  | succ k ih =>
    rw [lastRest] at hj
    split_ifs at hj with hrest
    · simp only [Option.some.injEq] at hj
      omega
    · have := ih hj
      omega

theorem addr_eq_ptrOf (h : PowerUp x₀) (hr : ∀ n, (inp n).writer.reset = false) (k : ℕ) :
    (slots x₀ inp reads k kind ps).addr = ptrOf (recorded x₀ inp reads kind ps k) := by
  rw [addr_slots]
  unfold recorded
  cases lastRest x₀ inp reads kind ps k with
  | none => rfl
  | some j => exact bufptr_run _ h hr _

end Served

/-- **No trigger is lost.** For every slot, at every poll: a slot in rest whose line has risen since
it was last read is activated and sent once exactly if the position of the trigger is new. -/
theorem noneLost_iff (x₀ : Hw) (inp : ℕ → HwInput) (reads : ℕ → Kind → Ps → ℕ) (kind : Kind)
    (ps : Ps) (h : PowerUp x₀) (hr : ∀ n, (inp n).writer.reset = false)
    (hreads : Monotone fun k => reads k kind ps) (k : ℕ) :
    NoneLost x₀ inp reads kind ps k ↔
      ((slots x₀ inp reads k kind ps).active = false → Triggered x₀ inp reads kind ps k →
        NewPosition (recorded x₀ inp reads kind ps k)
          (latchedBursts x₀ inp (kind.line ps) (reads k kind ps))) := by
  have hle : recorded x₀ inp reads kind ps k ≤
      latchedBursts x₀ inp (kind.line ps) (reads k kind ps) := by
    unfold recorded
    cases hj : lastRest x₀ inp reads kind ps k with
    | none => exact Nat.zero_le _
    | some j => exact latchedBursts_mono _ (hreads (lastRest_lt hj).le)
  have hiff : ∀ hrest : (slots x₀ inp reads k kind ps).active = false,
      Served x₀ inp reads kind ps k ↔ NewPosition (recorded x₀ inp reads kind ps k)
        (latchedBursts x₀ inp (kind.line ps) (reads k kind ps)) := by
    intro hrest
    rw [served_of_rest hrest, addr_eq_ptrOf h hr, ← ptrOf_ne_iff hle]
    unfold bufptrAt
    rw [bufptr_run _ h hr]
  unfold NoneLost
  constructor
  · intro hnone hrest htrig
    exact (hiff hrest).mp (hnone hrest htrig)
  · intro hnew hrest htrig
    exact (hiff hrest).mpr (hnew hrest htrig)

/-! ### A run -/

/-- A burst every 10038 clocks, and two pulses on the first injection line in the first of them. -/
def twoInj (n : ℕ) : HwInput where
  writer := { pulses n with trigger := n % 10038 == 0 }
  trig line := line = .inj .ps1 && (n == 5 || n == 12)

/-- A poll every 10^7 clocks; the first one falls between the two pulses. -/
def slowPolls (k : ℕ) (_ : Kind) (_ : Ps) : ℕ := 10 + 10000000 * k

/-- The state after configuration and reset. -/
def restHw : Hw := ⟨restSys, ⟨fun _ => false, fun _ => 0⟩⟩

theorem powerUp_restHw : PowerUp restHw := ⟨configured_restSys, rfl, rfl⟩

theorem latchedBursts_twoInj (k : ℕ) :
    latchedBursts restHw twoInj (.inj .ps1) (slowPolls k .inj .ps1) = 1 := by
  have hlate : ∀ n, 13 ≤ n → latchedBursts restHw twoInj (.inj .ps1) n = 1 := by
    intro n hn
    induction n, hn using Nat.le_induction with
    | base => decide +kernel
    | succ n hn ih =>
      have hlow : (twoInj n).trig (.inj .ps1) = false := by
        simp only [twoInj]
        simp
        omega
      rw [latchedBursts, if_neg (by simp [risesAt_of_low hlow]), ih]
  cases k with
  | zero => decide +kernel
  | succ k => exact hlate _ (by unfold slowPolls; omega)

/-- The first pulse is served. -/
theorem twoInj_first_served : NoneLost restHw twoInj slowPolls .inj .ps1 0 := by
  refine (noneLost_iff restHw twoInj slowPolls .inj .ps1 powerUp_restHw (fun _ => rfl) ?_ 0).mpr ?_
  · intro j k hjk
    show 10 + 10000000 * j ≤ 10 + 10000000 * k
    omega
  · intro _ _
    have hnew := latchedBursts_twoInj 0
    refine ⟨?_, Or.inl rfl⟩
    show latchedBursts restHw twoInj (.inj .ps1) (slowPolls 0 .inj .ps1) ≠ 0
    omega

/-- The second one is lost: it comes after the poll that takes up the first, in the same period of
the writer, and the slot is not activated when it is back in rest. -/
theorem twoInj_second_lost :
    (slots restHw twoInj slowPolls 9 .inj .ps1).active = false ∧
      Triggered restHw twoInj slowPolls .inj .ps1 9 ∧
      ¬NoneLost restHw twoInj slowPolls .inj .ps1 9 := by
  have hread : (fun j => bufptrAt restHw twoInj slowPolls j .inj .ps1) = fun _ => ptrOf 1 := by
    funext j
    unfold bufptrAt
    rw [bufptr_run _ powerUp_restHw (fun _ => rfl)]
    exact congrArg ptrOf (latchedBursts_twoInj j)
  have hslots : ∀ j, slots restHw twoInj slowPolls j .inj .ps1 =
      run slotStep (initTriggerInfo .inj .ps1) (fun _ => ptrOf 1) j := by
    intro j
    rw [slots_eq, hread]
  have hrest : (slots restHw twoInj slowPolls 9 .inj .ps1).active = false := by
    rw [hslots]
    decide +kernel
  have hlast : lastRest restHw twoInj slowPolls .inj .ps1 9 = some 0 := by
    simp only [lastRest, hslots]
    decide +kernel
  have htrig : Triggered restHw twoInj slowPolls .inj .ps1 9 := by
    refine ⟨12, ?_, by unfold slowPolls; omega, by decide +kernel⟩
    intro j hj
    rw [hlast, Option.mem_some] at hj
    rw [← hj]
    decide
  refine ⟨hrest, htrig, ?_⟩
  intro hnone
  refine (served_of_rest hrest).mp (hnone hrest htrig) ?_
  rw [congrFun hread 9, hslots]
  decide +kernel

end Psc.Snapshot
