import Psc.Snapshot.Writer

/-!
# Bursts on the AXI bus

The writer as an AXI master. A word is put on the bus in the clock in which `wready` is found high,
and it is handed over in a later clock in which `wready` is high again, the same that puts out the
word after it. Only AWAITRESP does not wait: the last word is on the bus for one clock.

1. `Ports` says which valid signals are up in which state, and `ports_run` that it always holds.
2. `InBurst` follows the words of a burst: those handed over and the one on the bus are the first
   words of a burst, in order (`inBurst_run`).
3. `protocol_iff`: the protocol is kept exactly if the slave takes the last word in its one clock,
   and does not wait for `wvalid` before it raises `wready` for the header.
-/

namespace Psc.Snapshot

open Clocked

/-! ## Words -/

/-- The words of a burst, in order. -/
def Word.all : List Word :=
  [.hdr, .cnt] ++
    [Ps.ps1, .ps2, .ps3, .ps4].flatMap (fun p =>
      [Field.dcct1, .dcct2, .mon1, .mon2, .mon3, .mon4, .mon5, .mon6].map (Word.ps p)) ++
    [.wrd35, .wrd36, .wrd37, .wrd38, .wrd39, .wrdlast]

theorem Word.take_succ (w : Word) :
    Word.all.take (w.idx + 1) = Word.all.take w.idx ++ [w] := by
  cases w with
  | ps p f => cases p <;> cases f <;> rfl
  | _ => rfl

theorem Word.next_cases (w : Word) :
    (w ≠ .wrdlast ∧ ∃ w', w.next = .word w' ∧ w' ≠ .hdr ∧ w'.idx = w.idx + 1) ∨
      (w = .wrdlast ∧ w.next = .awaitresp) := by
  cases w with
  | wrdlast => exact Or.inr ⟨rfl, rfl⟩
  | ps p f => cases p <;> cases f <;> exact Or.inl ⟨by simp, _, rfl, by simp, rfl⟩
  | _ => exact Or.inl ⟨by simp, _, rfl, by simp, rfl⟩

/-! ## The valid signals -/

/-- The valid signals in each state. -/
def Ports (s : State) : Phase → Prop
  | .idle => s.axi.awvalid = false ∧ s.axi.wvalid = false ∧ s.axi.wlast = false ∧
      s.axi.bready = false
  | .address => s.axi.awvalid = true ∧ s.axi.wvalid = false ∧ s.axi.wlast = false ∧
      s.axi.bready = false ∧ s.axi.awlen = 39
  | .word w => s.axi.awvalid = false ∧ s.axi.wvalid = decide (w ≠ .hdr) ∧ s.axi.wlast = false ∧
      s.axi.bready = false
  | .awaitresp => s.axi.awvalid = false ∧ s.axi.wlast = s.axi.wvalid ∧
      s.axi.bready = !s.axi.wvalid

theorem ports_step {s : State} {i : Input} (h : Ports s s.state) (hr : i.reset = false) :
    Ports (step s i) (step s i).state := by
  rw [step_of_not_reset hr]
  cases hs : s.state with
  | idle =>
    rw [hs] at h
    obtain ⟨haw, hw, hl, hb⟩ := h
    dsimp only
    split_ifs
    · exact ⟨rfl, hw, hl, hb, rfl⟩
    · exact ⟨haw, hw, hl, hb⟩
  | address =>
    rw [hs] at h
    obtain ⟨haw, hw, hl, hb, hlen⟩ := h
    dsimp only
    split_ifs
    · exact ⟨rfl, hw, hl, hb⟩
    · rw [hs]
      exact ⟨haw, hw, hl, hb, hlen⟩
  | word w =>
    rw [hs] at h
    obtain ⟨haw, hw, hl, hb⟩ := h
    dsimp only
    split_ifs
    · unfold writeWord
      rcases w.next_cases with ⟨hne, w', hnext, hhdr, -⟩ | ⟨rfl, hnext⟩
      · simp only [hnext, if_neg hne]
        exact ⟨haw, by simp [hhdr], hl, hb⟩
      · simp only [hnext]
        exact ⟨haw, rfl, hb⟩
    · rw [hs]
      exact ⟨haw, hw, hl, hb⟩
  | awaitresp =>
    rw [hs] at h
    obtain ⟨haw, -, -⟩ := h
    dsimp only
    split_ifs
    · exact ⟨haw, rfl, rfl, rfl⟩
    · exact ⟨haw, rfl, rfl⟩

/-- IDLE, with no valid signal up. -/
structure AtRest (s : State) : Prop where
  state : s.state = .idle
  ports : Ports s .idle

theorem ports_run {s : State} {inp : ℕ → Input} (h0 : AtRest s) (hr : ∀ n, (inp n).reset = false)
    (n : ℕ) : Ports (run step s inp n) (run step s inp n).state := by
  induction n with
  | zero =>
    show Ports s s.state
    rw [h0.state]
    exact h0.ports
  | succ n ih => exact ports_step ih (hr n)

/-! ## The protocol -/

/-- The signals of the address channel. -/
def M2s.aw (m : M2s) :
    Bool × BitVec 32 × BitVec 2 × BitVec 4 × BitVec 8 × BitVec 1 × BitVec 3 × BitVec 4 × BitVec 3 :=
  (m.awvalid, m.awaddr, m.awburst, m.awcache, m.awlen, m.awlock, m.awprot, m.awqos, m.awsize)

/-- The signals of the data channel. -/
def M2s.w (m : M2s) : Bool × BitVec 32 × Bool × BitVec 4 := (m.wvalid, m.wdata, m.wlast, m.wstrb)

section Protocol

variable (st : ℕ → State) (inp : ℕ → Input)

/-- An address is handed over. -/
def addressBeat (n : ℕ) : Bool := (st n).axi.awvalid && (inp n).awready

/-- A word is handed over. -/
def dataBeat (n : ℕ) : Bool := (st n).axi.wvalid && (inp n).wready

/-- The last word of a burst is handed over. -/
def lastBeat (n : ℕ) : Bool := dataBeat st inp n && (st n).axi.wlast

/-- A response is handed over. -/
def response (n : ℕ) : Bool := (st n).axi.bready && (inp n).bvalid

/-- A slave responds only to a burst whose last word it has taken. -/
def LegalSlave : Prop :=
  ∀ n, (inp n).bvalid = true → tickCount (response st inp) n < tickCount (lastBeat st inp) n

/-- A slave that answers: it takes what is offered and responds to what it has taken. -/
structure Answers : Prop where
  address : ∀ n, (st n).axi.awvalid = true → ∃ m, n ≤ m ∧ (inp m).awready = true
  data : ∀ n, (st n).axi.wvalid = true → ∃ m, n ≤ m ∧ (inp m).wready = true
  response : ∀ n, tickCount (response st inp) n < tickCount (lastBeat st inp) n →
    ∃ m, n ≤ m ∧ (inp m).bvalid = true

/-- `b` is the word `w` as it was at a clock between `t` and `u`, marked if it is the last. -/
def Carries (t u : ℕ) (w : Word) (b : BitVec 32 × Bool) : Prop :=
  ∃ c, t < c ∧ c < u ∧ b = (w.data (st c).datacnt (inp c), decide (w = .wrdlast))

/-- The lengths of the bursts whose addresses are handed over. -/
def addresses (t u : ℕ) : List (BitVec 8) :=
  record (addressBeat st inp) (fun n => (st n).axi.awlen) t u

/-- The words handed over, with `wlast`. -/
def words (t u : ℕ) : List (BitVec 32 × Bool) :=
  record (dataBeat st inp) (fun n => ((st n).axi.wdata, (st n).axi.wlast)) t u

/-- The AXI protocol: what is offered stands until it is taken; from a trigger that is accepted to
the next IDLE one address with `awlen` 39 and the forty words of a burst are handed over, in order
and with the last one marked; and IDLE comes again if the slave answers. -/
structure Protocol : Prop where
  awStable : ∀ n, (st n).axi.awvalid = true → (inp n).awready = false →
    (st (n + 1)).axi.aw = (st n).axi.aw
  wStable : ∀ n, (st n).axi.wvalid = true → (inp n).wready = false →
    (st (n + 1)).axi.w = (st n).axi.w
  burst : ∀ t u, accepts (st t) (inp t) = true → t < u → (st u).state = .idle →
    (∀ m, t < m → m < u → (st m).state ≠ .idle) →
    addresses st inp t u = [39] ∧ List.Forall₂ (Carries st inp t u) Word.all (words st inp t u)
  progress : Answers st inp → ∀ n, ∃ m, n ≤ m ∧ (st m).state = .idle

/-- The slave takes the last word in the first clock of AWAITRESP. -/
def TakesLast : Prop :=
  ∀ n, (st n).state = .awaitresp → (st n).axi.wvalid = true → (inp n).wready = true

/-- The slave raises `wready` for the header, although `wvalid` is low. -/
def OpensEarly : Prop :=
  ∀ n, (st n).state = .word .hdr → ∃ m, n ≤ m ∧ (inp m).wready = true

end Protocol

/-! ## A burst -/

/-- The word on the bus. -/
def pending (s : State) : List (BitVec 32 × Bool) :=
  if s.axi.wvalid then [(s.axi.wdata, s.axi.wlast)] else []

/-- What has been handed over since the trigger at clock `t`, in each state at clock `u`. -/
def InBurst (st : ℕ → State) (inp : ℕ → Input) (t u : ℕ) : Phase → Prop
  | .idle => addresses st inp t u = [39] ∧
      List.Forall₂ (Carries st inp t u) Word.all (words st inp t u)
  | .address => addresses st inp t u = [] ∧ words st inp t u = [] ∧ pending (st u) = []
  | .word w => addresses st inp t u = [39] ∧
      List.Forall₂ (Carries st inp t u) (Word.all.take w.idx) (words st inp t u ++ pending (st u))
  | .awaitresp => addresses st inp t u = [39] ∧
      List.Forall₂ (Carries st inp t u) Word.all (words st inp t u ++ pending (st u))

section Burst

variable {st : ℕ → State} {inp : ℕ → Input} {t u : ℕ}

theorem addresses_succ (h : t ≤ u) : addresses st inp t (u + 1) =
    addresses st inp t u ++ if addressBeat st inp u then [(st u).axi.awlen] else [] :=
  record_succ h

theorem words_succ_of_wready (h : t ≤ u) (hw : (inp u).wready = true) :
    words st inp t (u + 1) = words st inp t u ++ pending (st u) := by
  unfold words
  rw [record_succ h]
  unfold dataBeat pending
  rw [hw, Bool.and_true]

theorem words_succ_of_not_wready (h : t ≤ u) (hw : (inp u).wready = false) :
    words st inp t (u + 1) = words st inp t u := by
  unfold words
  rw [record_succ h]
  unfold dataBeat
  rw [hw, Bool.and_false, if_neg (by simp), List.append_nil]

theorem words_succ_of_not_wvalid (h : t ≤ u) (hw : (st u).axi.wvalid = false) :
    words st inp t (u + 1) = words st inp t u := by
  unfold words
  rw [record_succ h]
  unfold dataBeat
  rw [hw, Bool.false_and, if_neg (by simp), List.append_nil]

theorem forall₂_carries_succ {ws : List Word} {bs : List (BitVec 32 × Bool)}
    (h : List.Forall₂ (Carries st inp t u) ws bs) :
    List.Forall₂ (Carries st inp t (u + 1)) ws bs := by
  refine h.imp ?_
  rintro w b ⟨c, htc, hcu, hb⟩
  exact ⟨c, htc, by omega, hb⟩

end Burst

section Runs

variable {s : State} {inp : ℕ → Input} (h0 : AtRest s) (hr : ∀ n, (inp n).reset = false)

include h0 hr

/-- The trigger. -/
theorem inBurst_start {t : ℕ} (ht : accepts (run step s inp t) (inp t) = true) :
    (run step s inp (t + 1)).state = .address ∧
      InBurst (run step s inp) inp t (t + 1) .address := by
  unfold accepts at ht
  simp only [Bool.and_eq_true, Bool.not_eq_true', decide_eq_true_eq] at ht
  obtain ⟨⟨⟨-, hidle⟩, htrig⟩, hprev⟩ := ht
  have hports := ports_run h0 hr t
  rw [hidle] at hports
  obtain ⟨haw, hw, -, -⟩ := hports
  have hnext : run step s inp (t + 1) = startBurst (run step s inp t) (inp t) := by
    rw [run_succ, step_of_not_reset (hr t), hidle]
    simp only [htrig, hprev, Bool.not_false, Bool.and_self, if_true]
  rw [hnext]
  refine ⟨rfl, ?_, ?_, ?_⟩
  · rw [addresses_succ le_rfl]
    simp [addresses, addressBeat, haw]
  · rw [words_succ_of_not_wvalid le_rfl hw]
    exact record_self
  · rw [hnext]
    exact if_neg (by simp [startBurst, hw])

/-- One clock of a burst, in ADDRESS. -/
theorem inBurst_address {t u : ℕ} (htu : t < u) (hs : (run step s inp u).state = .address)
    (h : InBurst (run step s inp) inp t u .address) :
    InBurst (run step s inp) inp t (u + 1) (run step s inp (u + 1)).state := by
  have hports := ports_run h0 hr u
  rw [hs] at hports
  obtain ⟨haw, hw, -, -, hlen⟩ := hports
  obtain ⟨haddr, hwords, hpend⟩ := h
  have hwords' : words (run step s inp) inp t (u + 1) = words (run step s inp) inp t u :=
    words_succ_of_not_wvalid htu.le hw
  have haddr' : addresses (run step s inp) inp t (u + 1) = addresses (run step s inp) inp t u ++
      if addressBeat (run step s inp) inp u then [(run step s inp u).axi.awlen] else [] :=
    addresses_succ htu.le
  have hstep : run step s inp (u + 1) = step (run step s inp u) (inp u) := run_succ ..
  rw [step_of_not_reset (hr u), hs] at hstep
  cases hready : (inp u).awready with
  | true =>
    rw [hready] at hstep
    have hstate : (run step s inp (u + 1)).state = .word .hdr := by rw [hstep]; rfl
    have hpend' : pending (run step s inp (u + 1)) = [] := by
      rw [hstep]
      exact if_neg (by simp [hw])
    rw [hstate]
    refine ⟨?_, ?_⟩
    · rw [haddr', haddr, hlen]
      simp [addressBeat, haw, hready]
    · rw [hwords', hwords, hpend']
      exact List.Forall₂.nil
  | false =>
    rw [hready] at hstep
    have hsame : run step s inp (u + 1) = run step s inp u := hstep
    rw [hsame, hs]
    refine ⟨?_, hwords'.trans hwords, by rw [hsame]; exact hpend⟩
    rw [haddr', haddr]
    simp [addressBeat, hready]

/-- In a state that hands over a word. -/
theorem inBurst_word {t u : ℕ} {w : Word} (htu : t < u) (hs : (run step s inp u).state = .word w)
    (h : InBurst (run step s inp) inp t u (.word w)) :
    InBurst (run step s inp) inp t (u + 1) (run step s inp (u + 1)).state := by
  have hports := ports_run h0 hr u
  rw [hs] at hports
  obtain ⟨haw, hw, hl, -⟩ := hports
  obtain ⟨haddr, hwords⟩ := h
  have haddr' : addresses (run step s inp) inp t (u + 1) = [39] := by
    rw [addresses_succ htu.le, haddr]
    simp [addressBeat, haw]
  have hstep : run step s inp (u + 1) = step (run step s inp u) (inp u) := run_succ ..
  rw [step_of_not_reset (hr u), hs] at hstep
  cases hready : (inp u).wready with
  | true =>
    rw [hready] at hstep
    -- the word on the bus goes over and the next one takes its place
    have hpend : pending (run step s inp (u + 1)) =
        [(w.data (run step s inp u).datacnt (inp u), decide (w = .wrdlast))] := by
      rw [hstep]
      simp [pending, writeWord, hl]
    have hnew : Carries (run step s inp) inp t (u + 1) w
        (w.data (run step s inp u).datacnt (inp u), decide (w = .wrdlast)) :=
      ⟨u, htu, Nat.lt_succ_self u, rfl⟩
    have hall : List.Forall₂ (Carries (run step s inp) inp t (u + 1))
        (Word.all.take (w.idx + 1))
        (words (run step s inp) inp t (u + 1) ++ pending (run step s inp (u + 1))) := by
      rw [words_succ_of_wready htu.le hready, hpend, w.take_succ]
      exact List.rel_append (forall₂_carries_succ hwords) (List.Forall₂.cons hnew List.Forall₂.nil)
    have hstate : (run step s inp (u + 1)).state = w.next := by rw [hstep]; rfl
    rw [hstate]
    rcases w.next_cases with ⟨-, w', hnext, -, hidx⟩ | ⟨rfl, hnext⟩
    · rw [hnext]
      refine ⟨haddr', ?_⟩
      rw [hidx]
      exact hall
    · rw [hnext]
      exact ⟨haddr', hall⟩
  | false =>
    rw [hready] at hstep
    have hsame : run step s inp (u + 1) = run step s inp u := hstep
    rw [hsame, hs]
    refine ⟨haddr', ?_⟩
    rw [words_succ_of_not_wready htu.le hready, hsame]
    exact forall₂_carries_succ hwords

/-- In AWAITRESP, where the last word is taken in its one clock. -/
theorem inBurst_awaitresp (hlast : TakesLast (run step s inp) inp) {t u : ℕ} (htu : t < u)
    (hs : (run step s inp u).state = .awaitresp)
    (h : InBurst (run step s inp) inp t u .awaitresp) :
    InBurst (run step s inp) inp t (u + 1) (run step s inp (u + 1)).state := by
  have hports := ports_run h0 hr u
  rw [hs] at hports
  obtain ⟨haw, -, -⟩ := hports
  obtain ⟨haddr, hwords⟩ := h
  have haddr' : addresses (run step s inp) inp t (u + 1) = [39] := by
    rw [addresses_succ htu.le, haddr]
    simp [addressBeat, haw]
  have hwords' : words (run step s inp) inp t (u + 1) =
      words (run step s inp) inp t u ++ pending (run step s inp u) := by
    cases hw : (run step s inp u).axi.wvalid with
    | true => exact words_succ_of_wready htu.le (hlast u hs hw)
    | false =>
      rw [words_succ_of_not_wvalid htu.le hw]
      simp [pending, hw]
  have hall := forall₂_carries_succ hwords
  rw [← hwords'] at hall
  have hstep : run step s inp (u + 1) = step (run step s inp u) (inp u) := run_succ ..
  rw [step_of_not_reset (hr u), hs] at hstep
  cases hresp : (inp u).bvalid with
  | true =>
    rw [hresp] at hstep
    have hstate : (run step s inp (u + 1)).state = .idle := by rw [hstep]; rfl
    rw [hstate]
    exact ⟨haddr', hall⟩
  | false =>
    rw [hresp] at hstep
    have hstate : (run step s inp (u + 1)).state = .awaitresp := by rw [hstep]; rfl
    have hpend : pending (run step s inp (u + 1)) = [] := by rw [hstep]; rfl
    rw [hstate]
    refine ⟨haddr', ?_⟩
    rw [hpend, List.append_nil]
    exact hall

/-- From the trigger to the next IDLE. -/
theorem inBurst_run (hlast : TakesLast (run step s inp) inp) {t u : ℕ}
    (ht : accepts (run step s inp t) (inp t) = true) (htu : t < u)
    (hbusy : ∀ m, t < m → m < u → (run step s inp m).state ≠ .idle) :
    InBurst (run step s inp) inp t u (run step s inp u).state := by
  induction u, htu using Nat.le_induction with
  | base =>
    obtain ⟨hstate, hburst⟩ := inBurst_start h0 hr ht
    rw [hstate]
    exact hburst
  | succ u htu ih =>
    have hin := ih fun m hm hmu => hbusy m hm (by omega)
    cases hs : (run step s inp u).state with
    | idle => exact absurd hs (hbusy u htu (Nat.lt_succ_self u))
    | address =>
      rw [hs] at hin
      exact inBurst_address h0 hr htu hs hin
    | word w =>
      rw [hs] at hin
      exact inBurst_word h0 hr htu hs hin
    | awaitresp =>
      rw [hs] at hin
      exact inBurst_awaitresp h0 hr hlast htu hs hin

/-! ## Stability -/

theorem awStable_run (n : ℕ) (hv : (run step s inp n).axi.awvalid = true)
    (hready : (inp n).awready = false) : run step s inp (n + 1) = run step s inp n := by
  have hports := ports_run h0 hr n
  rw [run_succ, step_of_not_reset (hr n)]
  cases hs : (run step s inp n).state with
  | address => simp only [hready, Bool.false_eq_true, if_false]
  | idle | word _ | awaitresp =>
    rw [hs] at hports
    rw [hports.1] at hv
    simp at hv

theorem wStable_run (hlast : TakesLast (run step s inp) inp) (n : ℕ)
    (hv : (run step s inp n).axi.wvalid = true) (hready : (inp n).wready = false) :
    run step s inp (n + 1) = run step s inp n := by
  have hports := ports_run h0 hr n
  rw [run_succ, step_of_not_reset (hr n)]
  cases hs : (run step s inp n).state with
  | word w => simp only [hready, Bool.false_eq_true, if_false]
  | awaitresp =>
    have hw := hlast n hs hv
    rw [hready] at hw
    simp at hw
  | idle | address =>
    rw [hs] at hports
    rw [hports.2.1] at hv
    simp at hv

/-! ## Progress -/

omit h0 hr in
theorem awaits_step {x : State} {i : Input} (hri : i.reset = false) (hs : x.state = .awaitresp)
    (hb : i.bvalid = false) :
    (step x i).state = .awaitresp ∧ (step x i).axi.wvalid = false := by
  rw [step_of_not_reset hri, hs]
  simp only [hb, Bool.false_eq_true, if_false]
  exact ⟨trivial, trivial⟩

omit h0 hr in
/-- Before AWAITRESP no word is marked and no response taken, and the last word comes with it. -/
theorem before_awaitresp {x : State} {i : Input} (hri : i.reset = false) (hports : Ports x x.state)
    (hs : x.state ≠ .awaitresp) :
    x.axi.wlast = false ∧ x.axi.bready = false ∧
      ((step x i).state = .awaitresp → (step x i).axi.wvalid = true) := by
  rw [step_of_not_reset hri]
  cases hx : x.state with
  | idle =>
    rw [hx] at hports
    refine ⟨hports.2.2.1, hports.2.2.2, ?_⟩
    dsimp only
    split_ifs <;> simp [startBurst]
  | address =>
    rw [hx] at hports
    refine ⟨hports.2.2.1, hports.2.2.2.1, ?_⟩
    dsimp only
    split_ifs <;> simp [hx]
  | word w =>
    rw [hx] at hports
    refine ⟨hports.2.2.1, hports.2.2.2, ?_⟩
    dsimp only
    split_ifs
    · exact fun _ => rfl
    · simp [hx]
  | awaitresp => exact absurd hx hs

/-- The bursts whose last word was taken and the responses differ by the one that is awaited. -/
theorem balance (hlast : TakesLast (run step s inp) inp) (hslave : LegalSlave (run step s inp) inp)
    (n : ℕ) :
    tickCount (lastBeat (run step s inp) inp) n = tickCount (response (run step s inp) inp) n +
      if (run step s inp n).state = .awaitresp ∧ (run step s inp n).axi.wvalid = false then 1
      else 0 := by
  induction n with
  | zero =>
    rw [tickCount_zero, tickCount_zero, run_zero, h0.state, if_neg (by simp)]
  | succ n ih =>
    have hports := ports_run h0 hr n
    by_cases hs : (run step s inp n).state = .awaitresp
    · rw [hs] at hports ih
      obtain ⟨-, hl, hb⟩ := hports
      cases hw : (run step s inp n).axi.wvalid with
      | true =>
        -- the clock of the last word
        rw [hw, if_neg (by simp), Nat.add_zero] at ih
        have hbeat : lastBeat (run step s inp) inp n = true := by
          simp [lastBeat, dataBeat, hw, hl, hlast n hs hw]
        have hresp : response (run step s inp) inp n = false := by
          simp [response, hb, hw]
        have hnone : (inp n).bvalid = false := by
          by_contra h
          have hlt := hslave n (by simpa using h)
          omega
        rw [tickCount_succ_of_tick hbeat, tickCount_succ_of_not_tick hresp, ih, run_succ,
          if_pos (awaits_step (hr n) hs hnone)]
      | false =>
        rw [hw, if_pos ⟨rfl, rfl⟩] at ih
        have hbeat : lastBeat (run step s inp) inp n = false := by
          simp [lastBeat, dataBeat, hw]
        cases hbv : (inp n).bvalid with
        | true =>
          have hresp : response (run step s inp) inp n = true := by
            simp [response, hb, hw, hbv]
          have hidle : (run step s inp (n + 1)).state = .idle := by
            rw [run_succ, step_of_not_reset (hr n), hs]
            simp only [hbv, if_true]
          rw [tickCount_succ_of_not_tick hbeat, tickCount_succ_of_tick hresp, ih, hidle,
            if_neg (by simp)]
        | false =>
          have hresp : response (run step s inp) inp n = false := by
            simp [response, hbv]
          rw [tickCount_succ_of_not_tick hbeat, tickCount_succ_of_not_tick hresp, ih, run_succ,
            if_pos (awaits_step (hr n) hs hbv)]
    · obtain ⟨hl, hb, hnext⟩ := before_awaitresp (hr n) hports hs
      have hbeat : lastBeat (run step s inp) inp n = false := by
        simp [lastBeat, hl]
      have hresp : response (run step s inp) inp n = false := by
        simp [response, hb]
      rw [if_neg fun h => hs h.1] at ih
      rw [tickCount_succ_of_not_tick hbeat, tickCount_succ_of_not_tick hresp, ih, run_succ, if_neg]
      rintro ⟨hs', hw'⟩
      rw [hnext hs'] at hw'
      simp at hw'

theorem address_ends {n : ℕ} (hans : Answers (run step s inp) inp)
    (hs : (run step s inp n).state = .address) :
    ∃ m, n ≤ m ∧ (run step s inp m).state = .word .hdr := by
  have hports := ports_run h0 hr n
  rw [hs] at hports
  obtain ⟨m, hnm, hm, hready⟩ := exists_when (P := fun k => (run step s inp k).state = .address)
    (c := fun k => (inp k).awready) hs (fun k _ hk hnot => by
      rw [run_succ, step_of_not_reset (hr k), hk]
      simp only [hnot, Bool.false_eq_true, if_false]
      exact hk) (hans.address n hports.1)
  refine ⟨m + 1, by omega, ?_⟩
  rw [run_succ, step_of_not_reset (hr m), hm]
  simp only [hready, if_true]

theorem word_ends {n : ℕ} {w : Word} (hans : Answers (run step s inp) inp)
    (hopen : OpensEarly (run step s inp) inp) (hs : (run step s inp n).state = .word w) :
    ∃ m, n ≤ m ∧ (run step s inp m).state = w.next := by
  have hports := ports_run h0 hr n
  rw [hs] at hports
  have hcomes : ∃ m, n ≤ m ∧ (inp m).wready = true := by
    by_cases hw : w = .hdr
    · exact hopen n (hw ▸ hs)
    · exact hans.data n (by simp [hports.2.1, hw])
  obtain ⟨m, hnm, hm, hready⟩ := exists_when (P := fun k => (run step s inp k).state = .word w)
    (c := fun k => (inp k).wready) hs (fun k _ hk hnot => by
      rw [run_succ, step_of_not_reset (hr k), hk]
      simp only [hnot, Bool.false_eq_true, if_false]
      exact hk) hcomes
  refine ⟨m + 1, by omega, ?_⟩
  rw [run_succ, step_of_not_reset (hr m), hm]
  simp only [hready, if_true]
  rfl

theorem words_end (hans : Answers (run step s inp) inp) (hopen : OpensEarly (run step s inp) inp) :
    ∀ (k n : ℕ) (w : Word), w.idx + k = 39 → (run step s inp n).state = .word w →
      ∃ m, n ≤ m ∧ (run step s inp m).state = .awaitresp := by
  intro k
  induction k with
  | zero =>
    intro n w hw hs
    obtain ⟨m, hnm, hm⟩ := word_ends h0 hr hans hopen hs
    rcases w.next_cases with ⟨-, w', hnext, -, hidx⟩ | ⟨-, hnext⟩
    · have hle := w'.idx_le
      omega
    · exact ⟨m, hnm, hm.trans hnext⟩
  | succ k ih =>
    intro n w hw hs
    obtain ⟨m, hnm, hm⟩ := word_ends h0 hr hans hopen hs
    rcases w.next_cases with ⟨-, w', hnext, -, hidx⟩ | ⟨-, hnext⟩
    · obtain ⟨m', hmm', hm'⟩ := ih m w' (by omega) (hm.trans hnext)
      exact ⟨m', by omega, hm'⟩
    · exact ⟨m, hnm, hm.trans hnext⟩

/-- The response comes. -/
theorem awaitresp_ends {n : ℕ} (hlast : TakesLast (run step s inp) inp)
    (hslave : LegalSlave (run step s inp) inp) (hans : Answers (run step s inp) inp)
    (hs : (run step s inp n).state = .awaitresp) :
    ∃ m, n ≤ m ∧ (run step s inp m).state = .idle := by
  cases hb : (inp n).bvalid with
  | true =>
    refine ⟨n + 1, by omega, ?_⟩
    rw [run_succ, step_of_not_reset (hr n), hs]
    simp only [hb, if_true]
  | false =>
    -- from the next clock on the response is due
    have hnext := awaits_step (x := run step s inp n) (hr n) hs hb
    have hbal := balance h0 hr hlast hslave (n + 1)
    rw [run_succ, if_pos hnext] at hbal
    obtain ⟨m, hnm, hm, hbv⟩ := exists_when (n := n + 1)
      (P := fun k => (run step s inp k).state = .awaitresp) (c := fun k => (inp k).bvalid) hnext.1
      (fun k _ hk hnot => (awaits_step (hr k) hk hnot).1) (hans.response (n + 1) (by omega))
    refine ⟨m + 1, by omega, ?_⟩
    rw [run_succ, step_of_not_reset (hr m), hm]
    simp only [hbv, if_true]

theorem progress_run (hlast : TakesLast (run step s inp) inp)
    (hslave : LegalSlave (run step s inp) inp) (hopen : OpensEarly (run step s inp) inp)
    (hans : Answers (run step s inp) inp) (n : ℕ) :
    ∃ m, n ≤ m ∧ (run step s inp m).state = .idle := by
  have hword : ∀ m w, (run step s inp m).state = .word w →
      ∃ k, m ≤ k ∧ (run step s inp k).state = .idle := by
    intro m w hm
    have hle := w.idx_le
    obtain ⟨k, hmk, hk⟩ := words_end h0 hr hans hopen (39 - w.idx) m w (by omega) hm
    obtain ⟨l, hkl, hl⟩ := awaitresp_ends h0 hr hlast hslave hans hk
    exact ⟨l, by omega, hl⟩
  cases hs : (run step s inp n).state with
  | idle => exact ⟨n, le_rfl, hs⟩
  | address =>
    obtain ⟨m, hnm, hm⟩ := address_ends h0 hr hans hs
    obtain ⟨k, hmk, hk⟩ := hword m .hdr hm
    exact ⟨k, by omega, hk⟩
  | word w => exact hword n w hs
  | awaitresp => exact awaitresp_ends h0 hr hlast hslave hans hs

omit h0 in
theorem stuck_in_hdr {n : ℕ} (hs : (run step s inp n).state = .word .hdr)
    (hnever : ∀ m, n ≤ m → (inp m).wready = false) (m : ℕ) (hnm : n ≤ m) :
    (run step s inp m).state = .word .hdr := by
  induction m, hnm using Nat.le_induction with
  | base => exact hs
  | succ m hnm ih =>
    rw [run_succ, step_of_not_reset (hr m), ih]
    simp only [hnever m hnm, Bool.false_eq_true, if_false]
    exact ih

end Runs

/-- **The AXI protocol.** In every run with a legal slave it is kept exactly if the slave takes the
last word of each burst in its one clock, and does not wait for `wvalid` before it opens for the
header. -/
theorem protocol_iff (s : State) (inp : ℕ → Input) (h0 : AtRest s)
    (hr : ∀ n, (inp n).reset = false) (hslave : LegalSlave (run step s inp) inp) :
    Protocol (run step s inp) inp ↔
      TakesLast (run step s inp) inp ∧
        (Answers (run step s inp) inp → OpensEarly (run step s inp) inp) := by
  constructor
  · intro hprot
    constructor
    · intro n hs hv
      by_contra hnot
      -- AWAITRESP takes the word off the bus in any case
      have hsame := hprot.wStable n hv (by simpa using hnot)
      have hlow : (run step s inp (n + 1)).axi.wvalid = false := by
        rw [run_succ, step_of_not_reset (hr n), hs]
        dsimp only
        split_ifs <;> rfl
      have hfirst : (run step s inp (n + 1)).axi.wvalid = (run step s inp n).axi.wvalid :=
        congrArg Prod.fst hsame
      rw [hlow, hv] at hfirst
      simp at hfirst
    · intro hans n hs
      by_contra hnever
      push Not at hnever
      obtain ⟨m, hnm, hidle⟩ := hprot.progress hans n
      have hstuck := stuck_in_hdr hr hs (fun k hk => by simpa using hnever k hk) m hnm
      rw [hidle] at hstuck
      simp at hstuck
  · rintro ⟨hlast, hopen⟩
    refine ⟨?_, ?_, ?_, ?_⟩
    · intro n hv hready
      rw [awStable_run h0 hr n hv hready]
    · intro n hv hready
      rw [wStable_run h0 hr hlast n hv hready]
    · intro t u ht htu hidle hbusy
      have hburst := inBurst_run h0 hr hlast ht htu hbusy
      rw [hidle] at hburst
      exact hburst
    · intro hans
      exact progress_run h0 hr hlast hslave (hopen hans) hans

/-- One trigger, with a slave that is always ready, or drops `wready` in the clock of the last
word. -/
def oneBurst (ready : Bool) (n : ℕ) : Input where
  reset := false
  trigger := n = 0
  awready := true
  wready := ready || n ≠ 42
  bvalid := ready && n = 43
  dcctAdcs _ := ⟨0, 0⟩
  monAdcs _ := ⟨0, 0, 0, 0, 0, 0⟩

/-- All registers low. -/
def restRegs : State :=
  ⟨.idle, 0, ddrBaseAddr, 0, false, ⟨0, 0, 0, 0, 0, 0, 0, 0, false, 0, false, 0, false, false⟩, 0, 0⟩

theorem atRest_restRegs : AtRest restRegs := ⟨rfl, rfl, rfl, rfl, rfl⟩

/-- The slave that is always ready sees the protocol kept, and forty words. -/
theorem oneBurst_protocol : Protocol (run step restRegs (oneBurst true)) (oneBurst true) := by
  refine (protocol_iff restRegs (oneBurst true) atRest_restRegs (fun _ => rfl) ?_).mpr ?_
  · intro n hn
    obtain rfl : n = 43 := by simpa [oneBurst] using hn
    decide +kernel
  · exact ⟨fun n _ _ => rfl, fun _ n _ => ⟨n, le_rfl, rfl⟩⟩

/-- The other one does not: the last word is taken off the bus, and 39 words have gone over. -/
theorem oneBurst_drops_last :
    LegalSlave (run step restRegs (oneBurst false)) (oneBurst false) ∧
      (words (run step restRegs (oneBurst false)) (oneBurst false) 0 44).length = 39 ∧
      ¬Protocol (run step restRegs (oneBurst false)) (oneBurst false) := by
  refine ⟨?_, by decide +kernel, ?_⟩
  · intro n hn
    simp [oneBurst] at hn
  · intro hprot
    have hsame := hprot.wStable 42 (by decide +kernel) rfl
    have hfirst := congrArg Prod.fst hsame
    exact absurd hfirst (by decide +kernel)

end Psc.Snapshot
