import Psc.Fofb.Frames

/-!
# Resynchronisation

Frames of any length and content follow each other on the line, with at least twelve clocks between
them. The receiver is `Ready` for a frame if it is in IDLE and has seen `rx_dv` low, or if it still
looks for a start of frame in RX_PREAMBLE; then it goes through the frame as after a reset.

1. `Alike` relates two receivers that differ only in registers they will write before they read
   them, and every clock keeps it.
2. A frame leaves the receiver ready if the header that begins at its first start-of-frame byte, and
   the end of the packet, fit into the frame and the gap after it (`Settles`). A shorter one leaves
   it inside the header, where it takes the next frame for the rest of this one.
-/

namespace Psc.UdpRx

/-! ## Receivers that behave alike -/

/-- The output ports. -/
def outputs (s : State) : FofbStat × Bool × Bool := (s.fofbStat, s.rxDone, s.fofbPacket)

/-- The registers that the state will still read agree. -/
def LiveAlike (s t : State) : Phase → Prop
  | .rxPreamble => s.framebytenum = 0 ∧ t.framebytenum = 0
  | .rxHeader => s.framebytenum = t.framebytenum ∧ s.framebytenum ≤ 53 ∧
      ∀ j < s.framebytenum, s.udpPktBufRx j = t.udpPktBufRx j
  | .rxAddrlo => s.fastAddrHi = t.fastAddrHi
  | .rxSetptByte3 => s.fastAddrHi = t.fastAddrHi ∧ s.fastAddrLo = t.fastAddrLo
  | .rxSetptByte2 => s.fastAddrHi = t.fastAddrHi ∧ s.fastAddrLo = t.fastAddrLo ∧ s.setpt3 = t.setpt3
  | .rxSetptByte1 => s.fastAddrHi = t.fastAddrHi ∧ s.fastAddrLo = t.fastAddrLo ∧
      s.setpt3 = t.setpt3 ∧ s.setpt2 = t.setpt2
  | .rxSetptByte0 => s.fastAddrHi = t.fastAddrHi ∧ s.fastAddrLo = t.fastAddrLo ∧
      s.setpt3 = t.setpt3 ∧ s.setpt2 = t.setpt2 ∧ s.setpt1 = t.setpt1
  | _ => True

/-- Two receivers in the same state, with the same outputs. -/
structure Alike (s t : State) : Prop where
  state : s.state = t.state
  prev : s.rxDvPrev = t.rxDvPrev
  outputs : outputs s = outputs t
  live : LiveAlike s t s.state

theorem Alike.stat {s t : State} (h : Alike s t) : s.fofbStat = t.fofbStat :=
  congrArg Prod.fst h.outputs

theorem Alike.done {s t : State} (h : Alike s t) : s.rxDone = t.rxDone :=
  congrArg (fun o => o.2.1) h.outputs

theorem Alike.packet {s t : State} (h : Alike s t) : s.fofbPacket = t.fofbPacket :=
  congrArg (fun o => o.2.2) h.outputs

/-- Header bytes. -/
theorem Alike.rxHeader {s t : State} {i : Input} (h : Alike s t) (hs : s.state = .rxHeader) :
    Alike (rxHeader s i) (rxHeader t i) := by
  have ht : t.state = .rxHeader := h.state ▸ hs
  have hlive := h.live
  rw [hs] at hlive
  obtain ⟨hnum, hle, hbuf⟩ := hlive
  unfold UdpRx.rxHeader
  rw [← hnum]
  rcases Nat.lt_or_eq_of_le hle with hlt | heq
  · rw [if_pos hlt, if_pos hlt]
    refine ⟨h.state, h.prev, h.outputs, ?_⟩
    show LiveAlike _ _ s.state
    rw [hs]
    refine ⟨rfl, hlt, ?_⟩
    intro j hj
    show Function.update s.udpPktBufRx s.framebytenum i.rxDataIn j =
      Function.update t.udpPktBufRx s.framebytenum i.rxDataIn j
    by_cases hje : j = s.framebytenum
    · rw [hje, Function.update_self, Function.update_self]
    · rw [Function.update_of_ne hje, Function.update_of_ne hje]
      exact hbuf j (Nat.lt_of_le_of_ne (Nat.le_of_lt_succ hj) hje)
  · have hread : ∀ j < 53, s.udpPktBufRx j = t.udpPktBufRx j := fun j hj => hbuf j (by omega)
    have hacc : accepts s i = accepts t i := by
      unfold accepts ipDestAddr fastPsId
      rw [hread 30 (by omega), hread 31 (by omega), hread 32 (by omega), hread 33 (by omega),
        hread 42 (by omega), hread 43 (by omega)]
    have hnot : ¬s.framebytenum < 53 := by omega
    rw [if_neg hnot, if_pos heq, if_neg hnot, if_pos heq, hacc]
    by_cases ha : accepts t i = true
    · rw [if_pos ha, if_pos ha]
      refine ⟨rfl, h.prev, ?_, trivial⟩
      unfold acceptPacket nonceHigh readbackCmd UdpRx.outputs
      simp only [h.stat, h.done, hread 44 (by omega), hread 45 (by omega), hread 50 (by omega),
        hread 51 (by omega), hread 52 (by omega)]
    · rw [if_neg ha, if_neg ha]
      exact ⟨rfl, h.prev, h.outputs, trivial⟩

/-- A clock keeps two receivers alike. -/
theorem Alike.step {s t : State} {i : Input} (h : Alike s t) (hr : i.reset = false) :
    Alike (step s i) (step t i) := by
  have hstat := h.stat
  have hdone := h.done
  have hpacket := h.packet
  have hprev := h.prev
  have hlive := h.live
  have ht := h.state
  rw [step_of_not_reset hr, step_of_not_reset hr, ← ht]
  cases hs : s.state with
  | idle =>
    dsimp only
    rw [← hprev]
    split_ifs
    · exact ⟨rfl, rfl, by simp only [UdpRx.outputs, hstat], rfl, rfl⟩
    · exact ⟨rfl, rfl, by simp only [UdpRx.outputs, hstat], trivial⟩
  | rxPreamble =>
    rw [hs] at hlive
    obtain ⟨hs0, ht0⟩ := hlive
    dsimp only
    split_ifs
    · refine ⟨rfl, hprev, h.outputs, ?_⟩
      refine ⟨hs0.trans ht0.symm, by simp [hs0], ?_⟩
      intro j hj
      simp [hs0] at hj
    · exact h
  | rxHeader => exact h.rxHeader hs
  | rxAddrhi =>
    dsimp only
    split_ifs
    · exact ⟨rfl, hprev, by simp only [UdpRx.outputs, hstat, hdone], rfl⟩
    · exact ⟨rfl, hprev, by simp only [UdpRx.outputs, hstat], trivial⟩
  | rxAddrlo =>
    rw [hs] at hlive
    exact ⟨rfl, hprev, h.outputs, hlive, rfl⟩
  | rxSetptByte3 =>
    rw [hs] at hlive
    exact ⟨rfl, hprev, h.outputs, hlive.1, hlive.2, rfl⟩
  | rxSetptByte2 =>
    rw [hs] at hlive
    exact ⟨rfl, hprev, h.outputs, hlive.1, hlive.2.1, hlive.2.2, rfl⟩
  | rxSetptByte1 =>
    rw [hs] at hlive
    exact ⟨rfl, hprev, h.outputs, hlive.1, hlive.2.1, hlive.2.2.1, hlive.2.2.2, rfl⟩
  | rxSetptByte0 =>
    rw [hs] at hlive
    have hcommit : commit s i = commit t i := by
      obtain ⟨hhi, hlo, h3, h2, h1⟩ := hlive
      unfold commit
      rw [hstat, hhi, hlo, h3, h2, h1]
    dsimp only
    rw [hcommit]
    split_ifs
    · exact ⟨rfl, hprev, by simp only [UdpRx.outputs, hdone, hpacket], trivial⟩
    · exact ⟨rfl, hprev, by simp only [UdpRx.outputs, hpacket], trivial⟩
  | rxData => exact ⟨rfl, hprev, h.outputs, trivial⟩
  | checkAddr => exact ⟨rfl, hprev, h.outputs, trivial⟩
  | rxFinished => exact ⟨rfl, hprev, h.outputs, trivial⟩

theorem Alike.feed {s t : State} (h : Alike s t) {l : List Input}
    (hl : ∀ i ∈ l, i.reset = false) : Alike (feed s l) (feed t l) := by
  induction l generalizing s t with
  | nil => exact h
  | cons i l ih =>
    exact ih (h.step (hl i List.mem_cons_self)) fun j hj => hl j (List.mem_cons_of_mem i hj)

/-! ## Ready for a frame -/

/-- In IDLE, `rx_dv` was low. -/
structure Rested (s : State) : Prop where
  state : s.state = .idle
  prev : s.rxDvPrev = false
  done : s.rxDone = false
  packet : s.fofbPacket = false

/-- In RX_PREAMBLE. -/
structure Waiting (s : State) : Prop where
  state : s.state = .rxPreamble
  num : s.framebytenum = 0
  prev : s.rxDvPrev = true
  done : s.rxDone = false
  packet : s.fofbPacket = false

/-- The receiver after a reset, with other status registers; `s₁` gives the registers that the
reset leaves alone. -/
def fresh (s₁ : State) (stat : FofbStat) : State := { step s₁ resetInput with fofbStat := stat }

theorem rested_fresh (s₁ : State) (stat : FofbStat) : Rested (fresh s₁ stat) := ⟨rfl, rfl, rfl, rfl⟩

theorem Rested.step {s : State} (h : Rested s) (p : FofbParams) (d : BitVec 8) :
    Waiting (step s ⟨false, p, d, true⟩) ∧ (step s ⟨false, p, d, true⟩).fofbStat = s.fofbStat := by
  rw [step_of_not_reset rfl, h.state]
  simp only [h.prev, Bool.not_false, Bool.and_self, if_true]
  exact ⟨⟨rfl, rfl, rfl, rfl, rfl⟩, trivial⟩

theorem Waiting.step {s : State} (h : Waiting s) {i : Input} (hr : i.reset = false)
    (hd : i.rxDataIn ≠ 0xD5) : step s i = s := by
  rw [step_of_not_reset hr, h.state]
  exact if_neg hd

theorem Waiting.alike {s t : State} (hs : Waiting s) (ht : Waiting t)
    (hstat : s.fofbStat = t.fofbStat) : Alike s t := by
  refine ⟨hs.state.trans ht.state.symm, hs.prev.trans ht.prev.symm, ?_, ?_⟩
  · unfold outputs
    rw [hstat, hs.done, ht.done, hs.packet, ht.packet]
  · rw [hs.state]
    exact ⟨hs.num, ht.num⟩

/-- The line during a frame and the gap after it. -/
def line (p : FofbParams) (frame gap : List (BitVec 8)) : List Input :=
  gmii p true frame ++ gmii p false gap

theorem of_mem_line {p : FofbParams} {frame gap : List (BitVec 8)} {i : Input}
    (hi : i ∈ line p frame gap) : i.reset = false ∧ i.fofbParams = p := by
  rcases List.mem_append.mp hi with h | h
  · exact of_mem_gmii h
  · exact of_mem_gmii h

theorem map_line (p : FofbParams) (frame gap : List (BitVec 8)) :
    (line p frame gap).map Input.rxDataIn = frame ++ gap := by
  unfold line
  rw [List.map_append, map_gmii, map_gmii]

theorem drop_line (p : FofbParams) (frame gap : List (BitVec 8)) (k : ℕ) :
    (line p frame gap).drop k = line p (frame.drop k) (gap.drop (k - frame.length)) := by
  unfold line gmii
  rw [List.drop_append, List.length_map, List.map_drop, List.map_drop]

theorem rxDv_of_mem_gmii {p : FofbParams} {dv : Bool} {bs : List (BitVec 8)} {i : Input}
    (hi : i ∈ gmii p dv bs) : i.rxDv = dv := by
  obtain ⟨d, -, rfl⟩ := List.mem_map.mp hi
  rfl

/-- The receiver goes through a frame as it would after a reset: at every clock of the frame and of
the gap the outputs are the same. -/
def AsFresh (p : FofbParams) (s : State) (frame gap : List (BitVec 8)) : Prop :=
  ∀ s₁ n, outputs (feed s ((line p frame gap).take n)) =
    outputs (feed (fresh s₁ s.fofbStat) ((line p frame gap).take n))

/-- A ready receiver does so for every frame that begins with another byte than a start of frame. -/
theorem asFresh_of_ready {p : FofbParams} {s : State} (hs : Rested s ∨ Waiting s) {d : BitVec 8}
    (hd : d ≠ 0xD5) (frame gap : List (BitVec 8)) : AsFresh p s (d :: frame) gap := by
  intro s₁ n
  have hfresh := rested_fresh s₁ s.fofbStat
  cases n with
  | zero =>
    show outputs s = outputs (fresh s₁ s.fofbStat)
    rcases hs with h | h
    · simp only [outputs, h.done, h.packet, hfresh.done, hfresh.packet]
      rfl
    · simp only [outputs, h.done, h.packet, hfresh.done, hfresh.packet]
      rfl
  | succ n =>
    -- after the first byte both wait for the start of frame
    obtain ⟨hwait₁, hstat₁⟩ := hfresh.step p d
    have hfirst : Waiting (step s ⟨false, p, d, true⟩) ∧
        (step s ⟨false, p, d, true⟩).fofbStat = s.fofbStat := by
      rcases hs with h | h
      · exact h.step p d
      · rw [h.step rfl hd]
        exact ⟨h, rfl⟩
    have halike := hfirst.1.alike hwait₁ (hfirst.2.trans hstat₁.symm)
    refine (halike.feed (l := (line p frame gap).take n) ?_).outputs
    intro i hi
    exact (of_mem_line (List.mem_of_mem_take hi)).1

/-! ## Frames that leave the receiver ready -/

section Settle

variable {s : State} (p : FofbParams)

theorem rested_of_low (hs : s.state = .idle) {gap : List (BitVec 8)} (hgap : gap ≠ []) :
    Rested (feed s (gmii p false gap)) := by
  obtain ⟨gap', g, rfl⟩ := (List.eq_nil_or_concat gap).resolve_left hgap
  obtain ⟨hidle, -⟩ := feed_idle p hs gap'
  rw [List.concat_eq_append, gmii_append, feed_append]
  show Rested (step _ ⟨false, p, g, false⟩)
  rw [step_idle_low hidle rfl rfl]
  exact ⟨hidle, rfl, rfl, rfl⟩

theorem rested_of_idle (hs : s.state = .idle) (hp : s.rxDvPrev = true) (frame : List (BitVec 8))
    {gap : List (BitVec 8)} (hgap : gap ≠ []) : Rested (feed s (line p frame gap)) := by
  unfold line
  rw [feed_append]
  exact rested_of_low p (feed_ignored p hs hp frame).1 hgap

theorem idle_of_cut {l : List Input} (hs : s.state = .rxAddrhi) (hl : ∀ i ∈ l, i.reset = false)
    (hlen : l.length = 6) (hhead : ∀ i ∈ l.head?, i.rxDv = true)
    (hlast : ∀ i ∈ l.getLast?, i.rxDv = false) : (feed s l).state = .idle := by
  match l, hlen with
  | [i₀, i₁, i₂, i₃, i₄, i₅], _ =>
    have hfive := step_five i₀ i₁ i₂ i₃ i₄ hs (hhead i₀ rfl) (hl i₀ (by simp)) (hl i₁ (by simp))
      (hl i₂ (by simp)) (hl i₃ (by simp)) (hl i₄ (by simp))
    show (step (step (step (step (step (step s i₀) i₁) i₂) i₃) i₄) i₅).state = _
    rw [hfive, step_of_not_reset (hl i₅ (by simp))]
    simp [hlast i₅ rfl]

/-- A record that the frame does not fill is filled up from the gap, and ends there. -/
theorem rested_of_short (hs : s.state = .rxAddrhi) {a : BitVec 8} {frame gap : List (BitVec 8)}
    (hlen : frame.length < 5) (h7 : 7 ≤ gap.length) :
    Rested (feed s (line p (a :: frame) gap)) := by
  have hsplit : line p (a :: frame) gap = line p (a :: frame) (gap.take (5 - frame.length)) ++
      gmii p false (gap.drop (5 - frame.length)) := by
    unfold line
    rw [List.append_assoc, ← gmii_append, List.take_append_drop]
  have htake : (gap.take (5 - frame.length)).length = 5 - frame.length := by
    rw [List.length_take]
    omega
  have hdrop : gap.drop (5 - frame.length) ≠ [] := by
    rw [ne_eq, List.drop_eq_nil_iff]
    omega
  rw [hsplit, feed_append]
  refine rested_of_low p (idle_of_cut hs (fun i hi => (of_mem_line hi).1) ?_ ?_ ?_) hdrop
  · rw [← List.length_map Input.rxDataIn, map_line, List.length_append, htake, List.length_cons]
    omega
  · rintro i hi
    cases hi
    rfl
  · intro i hi
    have hne : gmii p false (gap.take (5 - frame.length)) ≠ [] := by
      intro h
      have h0 := congrArg List.length h
      rw [gmii, List.length_map, htake, List.length_nil] at h0
      omega
    unfold line at hi
    rw [List.getLast?_append_of_ne_nil _ hne] at hi
    exact rxDv_of_mem_gmii (List.mem_of_getLast? hi)

/-- The records of a packet end in the gap. -/
theorem rested_of_records (frame : List (BitVec 8)) {gap : List (BitVec 8)} (h2 : 2 ≤ gap.length)
    (h7 : frame = [] ∨ 7 ≤ gap.length) :
    ∀ {s : State}, s.state = .rxAddrhi → Rested (feed s (line p frame gap)) := by
  induction frame using recordsOf.induct with
  | case1 a b c d e f rest ih =>
    intro s hs
    exact ih (Or.inr (h7.resolve_left (by simp)))
      (feed_record p a b c d e f true true true true true hs).1
  | case2 frame hshort =>
    intro s hs
    have hlen := length_lt_six hshort
    cases frame with
    | nil =>
      -- the packet is whole
      obtain ⟨g, gap, rfl⟩ := List.exists_cons_of_length_pos (by omega : 0 < gap.length)
      have hdone : (step s ⟨false, p, g, false⟩).state = .idle := by
        rw [step_of_not_reset rfl, hs]
        rfl
      exact rested_of_low p hdone (by rintro rfl; simp at h2)
    | cons a frame =>
      rw [List.length_cons] at hlen
      exact rested_of_short p hs (by omega) (h7.resolve_left (by simp))

theorem Waiting.feed (hs : Waiting s) {l : List Input}
    (hl : ∀ i ∈ l, i.reset = false ∧ i.rxDataIn ≠ 0xD5) : feed s l = s := by
  induction l with
  | nil => rfl
  | cons i l ih =>
    obtain ⟨hr, hd⟩ := hl i List.mem_cons_self
    show UdpRx.feed (UdpRx.step s i) l = s
    rw [hs.step hr hd]
    exact ih fun j hj => hl j (List.mem_cons_of_mem i hj)

end Settle

/-- What follows the first start of frame. -/
def afterStart (w : List (BitVec 8)) : List (BitVec 8) := (w.dropWhile (· ≠ 0xD5)).tail

/-- If the bytes `w` of a frame and its gap have a start of frame, then there is room for the header
after it and for the clocks in which the receiver comes to rest: one, and one more if it has to end
a packet. -/
def Settles (p : FofbParams) (w : List (BitVec 8)) : Prop :=
  0xD5 ∈ w → 54 + (if Addressed p ((afterStart w).take 54) then 2 else 1) ≤ (afterStart w).length

instance (p : FofbParams) (w : List (BitVec 8)) : Decidable (Settles p w) :=
  inferInstanceAs (Decidable (_ → _))

theorem exists_start {w : List (BitVec 8)} (hw : 0xD5 ∈ w) :
    ∃ before, (∀ d ∈ before, d ≠ 0xD5) ∧ w = before ++ 0xD5 :: afterStart w := by
  induction w with
  | nil => simp at hw
  | cons d w ih =>
    by_cases hd : d = 0xD5
    · refine ⟨[], by simp, ?_⟩
      simp [afterStart, hd]
    · obtain ⟨before, hbefore, hsplit⟩ := ih (List.mem_of_ne_of_mem (Ne.symm hd) hw)
      have htail : afterStart (d :: w) = afterStart w := by
        unfold afterStart
        rw [List.dropWhile_cons_of_pos]
        exact decide_eq_true hd
      refine ⟨d :: before, ?_, ?_⟩
      · intro e he
        rcases List.mem_cons.mp he with rfl | he
        · exact hd
        · exact hbefore e he
      · rw [htail, List.cons_append, ← hsplit]

theorem line_start {p : FofbParams} {frame gap : List (BitVec 8)} (hmem : 0xD5 ∈ frame ++ gap) :
    ∃ l₁ i l₂, line p frame gap = l₁ ++ i :: l₂ ∧ (∀ j ∈ l₁, j.rxDataIn ≠ 0xD5) ∧
      i.rxDataIn = 0xD5 ∧ l₂.map Input.rxDataIn = afterStart (frame ++ gap) := by
  obtain ⟨before, hbefore, hsplit⟩ := exists_start hmem
  have hmap := map_line p frame gap
  rw [hsplit] at hmap
  obtain ⟨l₁, l', hl, hmap₁, hmap'⟩ := List.map_eq_append_iff.mp hmap
  obtain ⟨i, l₂, rfl, hi, hmap₂⟩ := List.map_eq_cons_iff.mp hmap'
  exact ⟨l₁, i, l₂, hl, fun j hj => hbefore _ (hmap₁ ▸ List.mem_map_of_mem hj), hi, hmap₂⟩

theorem Waiting.start {p : FofbParams} {s : State} (hs : Waiting s) {frame gap : List (BitVec 8)}
    {l₁ l₂ : List Input} {i : Input} (hl : line p frame gap = l₁ ++ i :: l₂)
    (hbefore : ∀ j ∈ l₁, j.rxDataIn ≠ 0xD5) (hi : i.rxDataIn = 0xD5) :
    UdpRx.feed s (line p frame gap) = UdpRx.feed { s with state := .rxHeader } l₂ := by
  have hmem : ∀ j ∈ l₁ ++ i :: l₂, j.reset = false := fun j hj => (of_mem_line (hl ▸ hj)).1
  have hsearch : UdpRx.feed s l₁ = s :=
    hs.feed fun j hj => ⟨hmem j (List.mem_append_left _ hj), hbefore j hj⟩
  have hstart : UdpRx.step s i = { s with state := .rxHeader } := by
    rw [step_of_not_reset (hmem i (List.mem_append_right _ List.mem_cons_self)), hs.state]
    exact if_pos hi
  rw [hl, feed_append, hsearch]
  show UdpRx.feed (UdpRx.step s i) l₂ = _
  rw [hstart]

/-- A frame with a start of frame that settles brings a waiting receiver to rest. -/
theorem Waiting.rested {p : FofbParams} {s : State} (hs : Waiting s) {frame gap : List (BitVec 8)}
    (hgap : 12 ≤ gap.length) (hset : Settles p (frame ++ gap)) (hmem : 0xD5 ∈ frame ++ gap) :
    Rested (UdpRx.feed s (line p frame gap)) := by
  obtain ⟨l₁, i, l₂, hl, hbefore, hi, hmap⟩ := line_start hmem
  have hroom := hset hmem
  have hlen : l₂.length = (afterStart (frame ++ gap)).length := by rw [← hmap, List.length_map]
  obtain ⟨hprev, hhead⟩ := feed_head (s := { s with state := .rxHeader }) (l := l₂.take 54) p rfl
    hs.num
    (fun j hj => of_mem_line (hl ▸ List.mem_append_right _
      (List.mem_cons_of_mem i (List.mem_of_mem_take hj))))
    (by rw [List.map_take, hmap]) (by rw [List.length_take]; split_ifs at hroom <;> omega)
  -- what is left of the frame and of the gap after the header
  have hrest : l₂.drop 54 = line p (frame.drop (l₁.length + 55))
      (gap.drop (l₁.length + 55 - frame.length)) := by
    rw [← drop_line, hl, ← List.drop_drop, List.drop_left]
    rfl
  have hcount : (frame.drop (l₁.length + 55)).length +
      (gap.drop (l₁.length + 55 - frame.length)).length =
        (afterStart (frame ++ gap)).length - 54 := by
    rw [← List.length_append, ← map_line p, ← hrest, List.length_map, List.length_drop, hlen]
  have hwhole : frame.drop (l₁.length + 55) = [] ∨
      12 ≤ (gap.drop (l₁.length + 55 - frame.length)).length := by
    rcases Nat.lt_or_ge (l₁.length + 55) frame.length with h | h
    · rw [Nat.sub_eq_zero_of_le (Nat.le_of_lt h), List.drop_zero]
      exact Or.inr hgap
    · exact Or.inl (List.drop_eq_nil_of_le h)
  rw [hs.start hl hbefore hi, ← List.take_append_drop 54 l₂, feed_append, hrest]
  by_cases ha : Addressed p ((afterStart (frame ++ gap)).take 54)
  · rw [if_pos ha] at hhead hroom
    apply rested_of_records p _ _ _ hhead.1
    · rcases hwhole with h | h
      · rw [h, List.length_nil] at hcount
        omega
      · omega
    · exact hwhole.imp_right fun h => by omega
  · rw [if_neg ha] at hhead hroom
    apply rested_of_idle p hhead.1 (hprev.trans hs.prev)
    intro h
    rcases hwhole with h' | h'
    · rw [h, h', List.length_nil] at hcount
      omega
    · rw [h, List.length_nil] at h'
      omega

theorem Waiting.waiting {p : FofbParams} {s : State} (hs : Waiting s) {frame gap : List (BitVec 8)}
    (hmem : 0xD5 ∉ frame ++ gap) : Waiting (UdpRx.feed s (line p frame gap)) := by
  rw [hs.feed]
  · exact hs
  · intro i hi
    refine ⟨(of_mem_line hi).1, ?_⟩
    intro hd
    rw [← map_line p, ← hd] at hmem
    exact hmem (List.mem_map_of_mem hi)

/-! ## Runs of frames -/

/-- Something that was sent, whole or not, and the bytes on the idle line after it. -/
structure Sent where
  frame : List (BitVec 8)
  gap : List (BitVec 8)
  frame_ne : frame ≠ []
  gap_len : 12 ≤ gap.length

/-- The bytes in which the receiver looks for a start of frame: in IDLE the first byte goes by. -/
def Sent.searched (t : Sent) (waiting : Bool) : List (BitVec 8) :=
  (if waiting then t.frame else t.frame.tail) ++ t.gap

/-- Each of them settles; `waiting` tells whether the receiver still looks for a start of frame. -/
def AllSettle (p : FofbParams) : Bool → List Sent → Prop
  | _, [] => True
  | waiting, t :: ts =>
    Settles p (t.searched waiting) ∧ AllSettle p (decide (0xD5 ∉ t.searched waiting)) ts

/-- The receiver after them. -/
def receiveAll (p : FofbParams) (s : State) (ts : List Sent) : State :=
  ts.foldl (fun s t => feed s (line p t.frame t.gap)) s

/-- Ready for a frame, in one of two ways. -/
def Ready (s : State) : Bool → Prop
  | true => Waiting s
  | false => Rested s

theorem Waiting.ready {p : FofbParams} {s : State} (hs : Waiting s) {frame gap : List (BitVec 8)}
    (hgap : 12 ≤ gap.length) (hset : Settles p (frame ++ gap)) :
    Ready (UdpRx.feed s (line p frame gap)) (decide (0xD5 ∉ frame ++ gap)) := by
  by_cases hmem : 0xD5 ∈ frame ++ gap
  · rw [decide_eq_false (not_not.mpr hmem)]
    exact hs.rested hgap hset hmem
  · rw [decide_eq_true hmem]
    exact hs.waiting hmem

theorem ready_receive {p : FofbParams} {s : State} {waiting : Bool} (t : Sent)
    (hs : Ready s waiting) (hset : Settles p (t.searched waiting)) :
    Ready (feed s (line p t.frame t.gap)) (decide (0xD5 ∉ t.searched waiting)) := by
  obtain ⟨frame, gap, hne, hgap⟩ := t
  cases waiting with
  | true => exact Waiting.ready hs hgap hset
  | false =>
    cases frame with
    | nil => exact absurd rfl hne
    | cons d frame => exact (Rested.step hs p d).1.ready hgap hset

theorem ready_receiveAll {p : FofbParams} (ts : List Sent) :
    ∀ {s : State} {waiting : Bool}, Ready s waiting → AllSettle p waiting ts →
      Rested (receiveAll p s ts) ∨ Waiting (receiveAll p s ts) := by
  induction ts with
  | nil =>
    intro s waiting hs _
    cases waiting with
    | true => exact Or.inr hs
    | false => exact Or.inl hs
  | cons t ts ih =>
    rintro s waiting hs ⟨hset, hall⟩
    exact ih (ready_receive t hs hset) hall

/-- **Resynchronisation.** After a reset and any frames that settle, every frame with a whole
preamble is gone through as after a reset, whatever follows the preamble. -/
theorem resync (p : FofbParams) (s₀ : State) (i₀ : Input) (hr : i₀.reset = true)
    (earlier : List Sent) (hset : AllSettle p false earlier) (body gap : List (BitVec 8)) :
    AsFresh p (receiveAll p (step s₀ i₀) earlier) (preamble ++ body) gap := by
  have hrest : Rested (step s₀ i₀) := by
    unfold step
    rw [if_pos hr]
    exact ⟨rfl, rfl, rfl, rfl⟩
  have hready := ready_receiveAll earlier (show Ready (step s₀ i₀) false from hrest) hset
  exact asFresh_of_ready hready (by decide) _ gap

/-- The stimulus cut after `n + 1` bytes, with zeros on the idle line. -/
def cutStimulus (n : ℕ) : Sent :=
  ⟨rxDataBytes.take (n + 1), List.replicate 12 0, by simp [rxDataBytes], by simp⟩

/-- Cut inside the preamble it does no harm to the next frame. -/
theorem resync_after_cut_preamble :
    AsFresh tbParams (receiveAll tbParams (step restState resetInput) [cutStimulus 5]) rxDataBytes
      (List.replicate 12 0) :=
  resync tbParams restState resetInput rfl [cutStimulus 5] ⟨by decide, trivial⟩
    (rxDataBytes.drop 8) (List.replicate 12 0)

/-- Cut inside the header it swallows the next frame: the packet is not received. -/
theorem cut_header_swallows :
    (feed (receiveAll tbParams (step restState resetInput) [cutStimulus 19])
        (line tbParams rxDataBytes (List.replicate 12 0))).fofbStat.packetsRcvd = 0 ∧
      ¬AsFresh tbParams (receiveAll tbParams (step restState resetInput) [cutStimulus 19])
        rxDataBytes (List.replicate 12 0) := by
  have hlost : (feed (receiveAll tbParams (step restState resetInput) [cutStimulus 19])
      (line tbParams rxDataBytes (List.replicate 12 0))).fofbStat.packetsRcvd = 0 := by
    decide +kernel
  refine ⟨hlost, ?_⟩
  intro h
  have hsame := congrArg (fun o => o.1.packetsRcvd) (h restState 98)
  exact absurd hsame (by decide +kernel)

end Psc.UdpRx
