import Mathlib.Data.List.GetD
import Psc.Fofb.UdpRx

/-!
# FOFB frames

What the receiver makes of an Ethernet frame: the preamble, the 54 header bytes, then records of
six bytes for as long as `rx_dv` is high. The receiver does not use the length fields, so the
padding and the check sequence after the UDP payload are read as records too, and the last of these
is filled up from the idle line.

1. `feed_head` and `receive_records`: the parts of a frame, one after the other.
2. `decodes_iff`: which frames leave behind the records of their payload.
-/

namespace Psc.UdpRx

/-! ## Bytes -/

/-- The low `n` bytes of a word, the most significant first. -/
def bytesOf {w : ℕ} : ℕ → BitVec w → List (BitVec 8)
  | 0, _ => []
  | n + 1, v => v.extractLsb' (8 * n) 8 :: bytesOf n v

@[simp] theorem length_bytesOf {w : ℕ} (n : ℕ) (v : BitVec w) : (bytesOf n v).length = n := by
  induction n with
  | zero => rfl
  | succ n ih => rw [bytesOf, List.length_cons, ih]

theorem append_bytes_two (v : BitVec 16) : v.extractLsb' 8 8 ++ v.extractLsb' 0 8 = v := by
  rw [BitVec.extractLsb'_append_extractLsb'_eq_extractLsb' (show 8 = 0 + 8 from rfl)]
  exact BitVec.extractLsb'_eq_self

theorem append_bytes_four {w : ℕ} (v : BitVec w) :
    v.extractLsb' 24 8 ++ v.extractLsb' 16 8 ++ v.extractLsb' 8 8 ++ v.extractLsb' 0 8 =
      v.extractLsb' 0 32 := by
  have h₁ : v.extractLsb' 24 8 ++ v.extractLsb' 16 8 = v.extractLsb' 16 16 :=
    BitVec.extractLsb'_append_extractLsb'_eq_extractLsb' (show 24 = 16 + 8 from rfl)
  have h₂ : v.extractLsb' 16 16 ++ v.extractLsb' 8 8 = v.extractLsb' 8 24 :=
    BitVec.extractLsb'_append_extractLsb'_eq_extractLsb' (show 16 = 8 + 8 from rfl)
  have h₃ : v.extractLsb' 8 24 ++ v.extractLsb' 0 8 = v.extractLsb' 0 32 :=
    BitVec.extractLsb'_append_extractLsb'_eq_extractLsb' (show 8 = 0 + 8 from rfl)
  rw [h₁, h₂, h₃]

/-! ## Frames -/

/-- An address and a setpoint. -/
structure Record where
  addr : BitVec 16
  value : BitVec 32
  deriving DecidableEq

/-- A record on the line. -/
def Record.bytes (r : Record) : List (BitVec 8) := bytesOf 2 r.addr ++ bytesOf 4 r.value

/-- `t_udp_pkt`, the headers of a frame. -/
structure UdpPkt where
  macDestAddr : BitVec 48
  macSrcAddr : BitVec 48
  macLenType : BitVec 16
  ipVer : BitVec 4
  ipIhl : BitVec 4
  ipTos : BitVec 8
  totalLen : BitVec 16
  ipIdent : BitVec 16
  ipFlags : BitVec 3
  ipFragoffset : BitVec 13
  ipTtl : BitVec 8
  ipProtocol : BitVec 8
  headerChecksum : BitVec 16
  ipSrcAddr : BitVec 32
  ipDestAddr : BitVec 32
  udpSrcPort : BitVec 16
  udpDestPort : BitVec 16
  udpLen : BitVec 16
  udpChecksum : BitVec 16
  fastPsId : BitVec 16
  readbackCmd : BitVec 16
  nonce : BitVec 64

/-- The 54 header bytes. -/
def UdpPkt.header (h : UdpPkt) : List (BitVec 8) :=
  bytesOf 6 h.macDestAddr ++ bytesOf 6 h.macSrcAddr ++ bytesOf 2 h.macLenType ++
    [h.ipVer ++ h.ipIhl, h.ipTos] ++ bytesOf 2 h.totalLen ++ bytesOf 2 h.ipIdent ++
    bytesOf 2 (h.ipFlags ++ h.ipFragoffset) ++ [h.ipTtl, h.ipProtocol] ++
    bytesOf 2 h.headerChecksum ++ bytesOf 4 h.ipSrcAddr ++ bytesOf 4 h.ipDestAddr ++
    bytesOf 2 h.udpSrcPort ++ bytesOf 2 h.udpDestPort ++ bytesOf 2 h.udpLen ++
    bytesOf 2 h.udpChecksum ++
    -- the payload starts here, in the order of `send_fast_udp_packet`
    bytesOf 2 h.fastPsId ++ bytesOf 2 h.readbackCmd ++ bytesOf 8 h.nonce

theorem UdpPkt.fields_header (h : UdpPkt) :
    UdpRx.ipDestAddr (h.header.getD · 0) = h.ipDestAddr ∧
      UdpRx.fastPsId (h.header.getD · 0) = h.fastPsId ∧
      UdpRx.readbackCmd (h.header.getD · 0) = h.readbackCmd ∧
      UdpRx.nonceHigh (h.header.getD · 0) ++ h.header.getD 53 0 = h.nonce.setWidth 32 := by
  have hdest := append_bytes_four h.ipDestAddr
  have hnonce := append_bytes_four h.nonce
  rw [BitVec.extractLsb'_eq_self] at hdest
  rw [← BitVec.setWidth_eq_extractLsb' (by omega)] at hnonce
  have hid := append_bytes_two h.fastPsId
  have hcmd := append_bytes_two h.readbackCmd
  -- `delta`, as the equation lemma of `header` is slow to build
  delta header
  simp only [UdpRx.ipDestAddr, UdpRx.fastPsId, UdpRx.readbackCmd, UdpRx.nonceHigh, bytesOf,
    List.cons_append, List.nil_append, List.getD_cons_succ, List.getD_cons_zero]
  exact ⟨hdest, hid, hcmd, hnonce⟩

theorem UdpPkt.length_header (h : UdpPkt) : h.header.length = 54 := by
  delta header
  simp

/-- A well-formed frame: the length fields cover the records, and only a frame below the minimum
size of 60 bytes is padded, at most up to that size. -/
structure Frame where
  pkt : UdpPkt
  records : List Record
  padding : List (BitVec 8)
  fcs : BitVec 32
  ipIhl : pkt.ipIhl = 5
  totalLen : pkt.totalLen.toNat = 40 + 6 * records.length
  udpLen : pkt.udpLen.toNat = 20 + 6 * records.length
  padded : padding = [] ∨ 54 + 6 * records.length + padding.length ≤ 60

/-- Preamble and start of frame. -/
def preamble : List (BitVec 8) := [0x55, 0x55, 0x55, 0x55, 0x55, 0x55, 0x55, 0xD5]

/-- What follows the payload. -/
def Frame.trailer (f : Frame) : List (BitVec 8) := f.padding ++ bytesOf 4 f.fcs

/-- A frame on the line. -/
def Frame.bytes (f : Frame) : List (BitVec 8) :=
  preamble ++ f.pkt.header ++ f.records.flatMap Record.bytes ++ f.trailer

/-! ## Feeding the receiver -/

/-- Bytes on the line, with or without `rx_dv`. -/
def gmii (p : FofbParams) (dv : Bool) (bs : List (BitVec 8)) : List Input :=
  bs.map fun d => ⟨false, p, d, dv⟩

/-- The state after some clocks. -/
def feed (s : State) (l : List Input) : State := l.foldl step s

/-- The state after a frame and the bytes on the idle line that follow it. -/
def receive (p : FofbParams) (s : State) (frame gap : List (BitVec 8)) : State :=
  feed s (gmii p true frame ++ gmii p false gap)

theorem feed_append (s : State) (l l' : List Input) : feed s (l ++ l') = feed (feed s l) l' :=
  List.foldl_append

theorem gmii_append (p : FofbParams) (dv : Bool) (bs bs' : List (BitVec 8)) :
    gmii p dv (bs ++ bs') = gmii p dv bs ++ gmii p dv bs' :=
  List.map_append

theorem map_gmii (p : FofbParams) (dv : Bool) (bs : List (BitVec 8)) :
    (gmii p dv bs).map Input.rxDataIn = bs := by
  simp [gmii, Function.comp_def]

theorem of_mem_gmii {p : FofbParams} {dv : Bool} {bs : List (BitVec 8)} {i : Input}
    (hi : i ∈ gmii p dv bs) : i.reset = false ∧ i.fofbParams = p := by
  obtain ⟨d, -, rfl⟩ := List.mem_map.mp hi
  exact ⟨rfl, rfl⟩

section Feed

variable {s : State} (p : FofbParams)

theorem feed_preamble (hs : s.state = .idle) (hp : s.rxDvPrev = false) :
    feed s (gmii p true preamble) =
      { s with
        state := .rxHeader
        framebytenum := 0
        rxDvPrev := true
        fofbPacket := false
        rxDone := false } := by
  simp [feed, gmii, preamble, step, hs, hp]

theorem feed_ignored (hs : s.state = .idle) (hp : s.rxDvPrev = true) (bs : List (BitVec 8)) :
    (feed s (gmii p true bs)).state = .idle ∧ (feed s (gmii p true bs)).rxDvPrev = true ∧
      (feed s (gmii p true bs)).fofbStat = s.fofbStat := by
  induction bs generalizing s with
  | nil => exact ⟨hs, hp, rfl⟩
  | cons b bs ih =>
    have hstep : step s ⟨false, p, b, true⟩ =
        { s with fofbPacket := false, rxDone := false, rxDvPrev := true } := by
      rw [step_of_not_reset rfl, hs]
      simp [hp]
    show (feed (step s ⟨false, p, b, true⟩) (gmii p true bs)).state = _ ∧
      (feed (step s ⟨false, p, b, true⟩) (gmii p true bs)).rxDvPrev = _ ∧
      (feed (step s ⟨false, p, b, true⟩) (gmii p true bs)).fofbStat = _
    rw [hstep]
    exact ih hs rfl

theorem feed_idle (hs : s.state = .idle) (gap : List (BitVec 8)) :
    (feed s (gmii p false gap)).state = .idle ∧
      (feed s (gmii p false gap)).fofbStat = s.fofbStat := by
  induction gap generalizing s with
  | nil => exact ⟨hs, rfl⟩
  | cons b gap ih =>
    show (feed (step s ⟨false, p, b, false⟩) (gmii p false gap)).state = _ ∧
      (feed (step s ⟨false, p, b, false⟩) (gmii p false gap)).fofbStat = _
    rw [step_idle_low hs rfl rfl]
    exact ih hs

/-- The buffer with some bytes written from position `k` on. -/
def writeFrom (buf : ℕ → BitVec 8) (k : ℕ) : List (BitVec 8) → ℕ → BitVec 8
  | [] => buf
  | b :: bs => writeFrom (Function.update buf k b) (k + 1) bs

theorem writeFrom_of_lt (bs : List (BitVec 8)) :
    ∀ (buf : ℕ → BitVec 8) (k j : ℕ), j < k → writeFrom buf k bs j = buf j := by
  induction bs with
  | nil => intro buf k j _; rfl
  | cons b bs ih =>
    intro buf k j hj
    rw [writeFrom, ih _ _ _ (by omega), Function.update_of_ne (by omega)]

theorem writeFrom_add (bs : List (BitVec 8)) :
    ∀ (buf : ℕ → BitVec 8) (k j : ℕ), j < bs.length → writeFrom buf k bs (k + j) = bs.getD j 0 := by
  induction bs with
  | nil => intro buf k j hj; simp at hj
  | cons b bs ih =>
    intro buf k j hj
    cases j with
    | zero =>
      rw [writeFrom, writeFrom_of_lt _ _ _ _ (by omega)]
      exact Function.update_self ..
    | succ j =>
      rw [writeFrom, show k + (j + 1) = k + 1 + j by omega, ih _ _ _ (by simpa using hj)]
      rfl

/-- Header bytes before the last. -/
theorem feed_header {l : List Input} (hs : s.state = .rxHeader) (hl : ∀ i ∈ l, i.reset = false)
    (hlen : s.framebytenum + l.length ≤ 53) :
    feed s l =
      { s with
        framebytenum := s.framebytenum + l.length
        udpPktBufRx := writeFrom s.udpPktBufRx s.framebytenum (l.map Input.rxDataIn) } := by
  induction l generalizing s with
  | nil => rfl
  | cons i l ih =>
    rw [List.length_cons] at hlen
    have hstep : step s i =
        { s with
          framebytenum := s.framebytenum + 1
          udpPktBufRx := Function.update s.udpPktBufRx s.framebytenum i.rxDataIn } := by
      rw [step_of_not_reset (hl i List.mem_cons_self), hs]
      show rxHeader s i = _
      unfold rxHeader
      rw [if_pos (by omega), hs]
    have hrest := ih (s := step s i) (by rw [hstep]; exact hs)
      (fun j hj => hl j (List.mem_cons_of_mem i hj)) (by rw [hstep]; simp only; omega)
    show feed (step s i) l = _
    rw [hrest, hstep]
    simp only [List.length_cons, List.map_cons, writeFrom]
    rw [Nat.add_assoc, Nat.add_comm 1]

/-- The header is for this controller. -/
def Addressed (header : List (BitVec 8)) : Prop :=
  ipDestAddr (header.getD · 0) = p.ipaddr ∧ fastPsId (header.getD · 0) = 0x7631

instance (header : List (BitVec 8)) : Decidable (Addressed p header) :=
  inferInstanceAs (Decidable (_ ∧ _))

/-- The clock of the last header byte, with the others in the buffer. -/
theorem feed_head_eq {l : List Input} {bs : List (BitVec 8)} (hs : s.state = .rxHeader)
    (h0 : s.framebytenum = 0) (hl : ∀ i ∈ l, i.reset = false) (hbs : l.map Input.rxDataIn = bs)
    (hlen : bs.length = 54) :
    ∃ buf, ∃ i ∈ l, i.rxDataIn = bs.getD 53 0 ∧ (∀ j < 53, buf j = bs.getD j 0) ∧
      feed s l = rxHeader { s with framebytenum := 53, udpPktBufRx := buf } i := by
  obtain ⟨l', i, rfl⟩ : ∃ l' i, l = l' ++ [i] := by
    refine ⟨l.dropLast, l.getLast (by rintro rfl; subst hbs; simp at hlen), ?_⟩
    exact (List.dropLast_append_getLast _).symm
  have hlen' : l'.length = 53 := by
    rw [← hbs, List.length_map, List.length_append, List.length_singleton] at hlen
    omega
  rw [List.map_append, List.map_singleton] at hbs
  refine ⟨writeFrom s.udpPktBufRx 0 (l'.map Input.rxDataIn), i, by simp, by simp [← hbs, hlen'],
    ?_, ?_⟩
  · intro j hj
    have h := writeFrom_add (l'.map Input.rxDataIn) s.udpPktBufRx 0 j (by simpa [hlen'] using hj)
    rw [Nat.zero_add] at h
    rw [h, ← hbs, List.getD_append _ _ _ _ (by simpa [hlen'] using hj)]
  · rw [feed_append, feed_header hs (fun j hj => hl j (List.mem_append_left _ hj)) (by omega), h0,
      hlen']
    show step _ i = _
    rw [step_of_not_reset (hl i (by simp))]
    simp only [hs, Nat.zero_add]

/-- The whole header: it is accepted by its destination and its id. -/
theorem feed_head {l : List Input} {bs : List (BitVec 8)} (hs : s.state = .rxHeader)
    (h0 : s.framebytenum = 0) (hl : ∀ i ∈ l, i.reset = false ∧ i.fofbParams = p)
    (hbs : l.map Input.rxDataIn = bs) (hlen : bs.length = 54) :
    (feed s l).rxDvPrev = s.rxDvPrev ∧
    if Addressed p bs then
      (feed s l).state = .rxAddrhi ∧
      (feed s l).fofbStat =
        { s.fofbStat with
          nonce := nonceHigh (bs.getD · 0) ++ bs.getD 53 0
          command := (readbackCmd (bs.getD · 0)).setWidth 32
          packetsRcvd := s.fofbStat.packetsRcvd + 1 }
    else (feed s l).state = .idle ∧ (feed s l).fofbStat = s.fofbStat := by
  obtain ⟨buf, i, hi, hlast, hread, hfeed⟩ :=
    feed_head_eq hs h0 (fun i hi => (hl i hi).1) hbs hlen
  have hacc : accepts { s with framebytenum := 53, udpPktBufRx := buf } i = true ↔
      Addressed p bs := by
    unfold Addressed accepts ipDestAddr fastPsId
    simp only [Bool.and_eq_true, decide_eq_true_eq, (hl i hi).2, hread 30 (by omega),
      hread 31 (by omega), hread 32 (by omega), hread 33 (by omega), hread 42 (by omega),
      hread 43 (by omega)]
  rw [hfeed]
  unfold rxHeader
  simp only [lt_irrefl, if_false, if_true, hacc]
  split_ifs with h
  · refine ⟨rfl, rfl, ?_⟩
    unfold acceptPacket nonceHigh readbackCmd
    simp only [hread 44 (by omega), hread 45 (by omega), hread 50 (by omega), hread 51 (by omega),
      hread 52 (by omega), hlast]
  · exact ⟨rfl, rfl, rfl⟩

/-! ### Records -/

/-- The records in a run of bytes; an incomplete one at the end is left out. -/
def recordsOf : List (BitVec 8) → List Record
  | a :: b :: c :: d :: e :: f :: rest => ⟨a ++ b, c ++ d ++ e ++ f⟩ :: recordsOf rest
  | _ => []

/-- The setpoints after a record. -/
def applyRecord (setpts : Ps → BitVec 32) (r : Record) (ps : Ps) : BitVec 32 :=
  if r.addr = p.addr ps then r.value else setpts ps

theorem recordsOf_bytes (r : Record) (rest : List (BitVec 8)) :
    recordsOf (r.bytes ++ rest) = r :: recordsOf rest := by
  obtain ⟨addr, value⟩ := r
  show (⟨addr.extractLsb' 8 8 ++ addr.extractLsb' 0 8, value.extractLsb' 24 8 ++
    value.extractLsb' 16 8 ++ value.extractLsb' 8 8 ++ value.extractLsb' 0 8⟩ : Record) ::
      recordsOf rest = _
  rw [append_bytes_two, append_bytes_four, BitVec.extractLsb'_eq_self]

theorem recordsOf_flatMap (l : List Record) (rest : List (BitVec 8)) :
    recordsOf (l.flatMap Record.bytes ++ rest) = l ++ recordsOf rest := by
  induction l with
  | nil => rfl
  | cons r l ih => rw [List.flatMap_cons, List.append_assoc, recordsOf_bytes, ih, List.cons_append]

/-- Six bytes from RX_ADDRHI on, of which the first has `rx_dv`: the record is applied, whatever
the other five have. -/
theorem feed_record (a b c d e f : BitVec 8) (v₁ v₂ v₃ v₄ v₅ : Bool) (hs : s.state = .rxAddrhi) :
    (feed s [⟨false, p, a, true⟩, ⟨false, p, b, v₁⟩, ⟨false, p, c, v₂⟩, ⟨false, p, d, v₃⟩,
        ⟨false, p, e, v₄⟩, ⟨false, p, f, v₅⟩]).state = (if v₅ then .rxAddrhi else .idle) ∧
      (feed s [⟨false, p, a, true⟩, ⟨false, p, b, v₁⟩, ⟨false, p, c, v₂⟩, ⟨false, p, d, v₃⟩,
        ⟨false, p, e, v₄⟩, ⟨false, p, f, v₅⟩]).fofbStat =
        { s.fofbStat with
          setptFlt := applyRecord p s.fofbStat.setptFlt ⟨a ++ b, c ++ d ++ e ++ f⟩ } := by
  have hfive := step_five ⟨false, p, a, true⟩ ⟨false, p, b, v₁⟩ ⟨false, p, c, v₂⟩ ⟨false, p, d, v₃⟩
    ⟨false, p, e, v₄⟩ hs rfl rfl rfl rfl rfl rfl
  show (step (step (step (step (step (step s _) _) _) _) _) ⟨false, p, f, v₅⟩).state = _ ∧
    (step (step (step (step (step (step s _) _) _) _) _) ⟨false, p, f, v₅⟩).fofbStat = _
  rw [hfive, step_of_not_reset rfl]
  cases v₅ with
  | true => exact ⟨rfl, rfl⟩
  | false => exact ⟨rfl, rfl⟩

theorem feed_cut (a b c d e f : BitVec 8) (v₁ v₂ v₃ v₄ : Bool) (hs : s.state = .rxAddrhi)
    (rest : List (BitVec 8)) :
    (feed s (⟨false, p, a, true⟩ :: ⟨false, p, b, v₁⟩ :: ⟨false, p, c, v₂⟩ :: ⟨false, p, d, v₃⟩ ::
        ⟨false, p, e, v₄⟩ :: ⟨false, p, f, false⟩ :: gmii p false rest)).fofbStat =
      { s.fofbStat with
        setptFlt := applyRecord p s.fofbStat.setptFlt ⟨a ++ b, c ++ d ++ e ++ f⟩ } := by
  obtain ⟨hstate, hstat⟩ := feed_record p a b c d e f v₁ v₂ v₃ v₄ false hs
  rw [show (⟨false, p, a, true⟩ :: ⟨false, p, b, v₁⟩ :: ⟨false, p, c, v₂⟩ :: ⟨false, p, d, v₃⟩ ::
        ⟨false, p, e, v₄⟩ :: ⟨false, p, f, false⟩ :: gmii p false rest : List Input) =
      [⟨false, p, a, true⟩, ⟨false, p, b, v₁⟩, ⟨false, p, c, v₂⟩, ⟨false, p, d, v₃⟩,
        ⟨false, p, e, v₄⟩, ⟨false, p, f, false⟩] ++ gmii p false rest from rfl,
    feed_append, (feed_idle p hstate rest).2, hstat]

theorem feed_short {l : List Input} (hs : s.state = .rxAddrhi) (hl : ∀ i ∈ l, i.reset = false)
    (hdv : ∀ i ∈ l.head?, i.rxDv = true) (hlen : l.length < 6) :
    (feed s l).fofbStat = s.fofbStat := by
  match l with
  | [] => rfl
  | [i₀] => simp_all [feed, step]
  | [i₀, i₁] => simp_all [feed, step]
  | [i₀, i₁, i₂] => simp_all [feed, step]
  | [i₀, i₁, i₂, i₃] => simp_all [feed, step]
  | [i₀, i₁, i₂, i₃, i₄] => simp_all [feed, step]

theorem recordsOf_short {bs : List (BitVec 8)} (hlen : bs.length < 6) : recordsOf bs = [] := by
  match bs with
  | [] | [_] | [_, _] | [_, _, _] | [_, _, _, _] | [_, _, _, _, _] => rfl

/-- The bytes of the last, incomplete record are filled up from the idle line. -/
def filled (bs gap : List (BitVec 8)) : List (BitVec 8) :=
  bs ++ gap.take ((6 - bs.length % 6) % 6)

theorem filled_flatMap (l : List Record) (bs gap : List (BitVec 8)) :
    filled (l.flatMap Record.bytes ++ bs) gap = l.flatMap Record.bytes ++ filled bs gap := by
  have hlen : (l.flatMap Record.bytes).length = 6 * l.length := by
    induction l with
    | nil => rfl
    | cons r l ih =>
      rw [List.flatMap_cons, List.length_append, ih, List.length_cons]
      show 6 + 6 * l.length = _
      omega
  unfold filled
  rw [List.length_append, hlen, Nat.mul_add_mod, List.append_assoc]

/-- The end of the records, where fewer than six bytes are left. -/
theorem receive_rest {bs gap : List (BitVec 8)} (hs : s.state = .rxAddrhi) (hlen : bs.length < 6) :
    (receive p s bs gap).fofbStat =
      { s.fofbStat with
        setptFlt := (recordsOf (filled bs gap)).foldl (applyRecord p) s.fofbStat.setptFlt } := by
  unfold receive
  match bs with
  | [] =>
    -- the records end with the frame
    cases gap with
    | nil => rfl
    | cons g gap =>
      have hdone : step s ⟨false, p, g, false⟩ =
          { s with fofbPacket := false, rxDone := true, state := .idle } := by
        rw [step_of_not_reset rfl, hs]
        rfl
      show (feed (step s ⟨false, p, g, false⟩) (gmii p false gap)).fofbStat = _
      rw [hdone, (feed_idle p rfl gap).2]
      rfl
  | a :: bs =>
    rcases Nat.lt_or_ge (bs.length + gap.length) 5 with hshort | hlong
    · -- the clocks so far do not complete the record
      have hnone : recordsOf (filled (a :: bs) gap) = [] := by
        apply recordsOf_short
        simp only [filled, List.length_append, List.length_take, List.length_cons]
        omega
      rw [hnone]
      apply feed_short hs
      · intro i hi
        rcases List.mem_append.mp hi with h | h
        · exact (of_mem_gmii h).1
        · exact (of_mem_gmii h).1
      · simp [gmii]
      · simp only [gmii, List.length_append, List.length_map, List.length_cons]
        omega
    · match bs, gap, hlong with
      | [], g₀ :: g₁ :: g₂ :: g₃ :: g₄ :: gap, _ =>
        simpa [filled, recordsOf, gmii] using
          feed_cut p a g₀ g₁ g₂ g₃ g₄ false false false false hs gap
      | [b], g₀ :: g₁ :: g₂ :: g₃ :: gap, _ =>
        simpa [filled, recordsOf, gmii] using
          feed_cut p a b g₀ g₁ g₂ g₃ true false false false hs gap
      | [b, c], g₀ :: g₁ :: g₂ :: gap, _ =>
        simpa [filled, recordsOf, gmii] using feed_cut p a b c g₀ g₁ g₂ true true false false hs gap
      | [b, c, d], g₀ :: g₁ :: gap, _ =>
        simpa [filled, recordsOf, gmii] using feed_cut p a b c d g₀ g₁ true true true false hs gap
      | [b, c, d, e], g₀ :: gap, _ =>
        simpa [filled, recordsOf, gmii] using feed_cut p a b c d e g₀ true true true true hs gap

theorem length_lt_six {bs : List (BitVec 8)}
    (hshort : ∀ a b c d e f rest, bs = a :: b :: c :: d :: e :: f :: rest → False) :
    bs.length < 6 := by
  match bs, hshort with
  | [], _ | [_], _ | [_, _], _ | [_, _, _], _ | [_, _, _, _], _ | [_, _, _, _, _], _ => simp
  | a :: b :: c :: d :: e :: f :: rest, h => exact absurd rfl (h a b c d e f rest)

/-- What follows an accepted header is read as records to the end. -/
theorem receive_records {gap : List (BitVec 8)} (bs : List (BitVec 8)) :
    ∀ {s : State}, s.state = .rxAddrhi → (receive p s bs gap).fofbStat =
      { s.fofbStat with
        setptFlt := (recordsOf (filled bs gap)).foldl (applyRecord p) s.fofbStat.setptFlt } := by
  induction bs using recordsOf.induct with
  | case1 a b c d e f rest ih =>
    intro s hs
    obtain ⟨hstate, hstat⟩ := feed_record p a b c d e f true true true true true hs
    have hfill : filled (a :: b :: c :: d :: e :: f :: rest) gap =
        a :: b :: c :: d :: e :: f :: filled rest gap := by
      unfold filled
      simp only [List.length_cons, Nat.add_assoc, Nat.reduceAdd, Nat.add_mod_right,
        List.cons_append]
    have hih := ih hstate
    rw [hstat] at hih
    rw [hfill]
    exact hih
  | case2 bs hshort =>
    intro s hs
    exact receive_rest p hs (length_lt_six hshort)

end Feed

/-! ## Decoding -/

/-- The value of the last record with an address. -/
def lastValue (addr : BitVec 16) (l : List Record) : Option (BitVec 32) :=
  (l.reverse.find? fun r => r.addr = addr).map Record.value

theorem lastValue_append (addr : BitVec 16) (l l' : List Record) :
    lastValue addr (l ++ l') = (lastValue addr l').or (lastValue addr l) := by
  unfold lastValue
  rw [List.reverse_append, List.find?_append, Option.map_or]

theorem foldl_applyRecord (p : FofbParams) (setpts : Ps → BitVec 32) (ps : Ps) (l : List Record) :
    l.foldl (applyRecord p) setpts ps = (lastValue (p.addr ps) l).getD (setpts ps) := by
  induction l using List.reverseRecOn with
  | nil => rfl
  | append_singleton l r ih =>
    rw [List.foldl_append, lastValue_append]
    show (if r.addr = p.addr ps then r.value else l.foldl (applyRecord p) setpts ps) = _
    rw [ih]
    by_cases h : r.addr = p.addr ps
    · simp [lastValue, h]
    · simp [lastValue, h]

/-- The frame is for this controller. -/
def Frame.addressed (p : FofbParams) (f : Frame) : Prop :=
  f.pkt.ipDestAddr = p.ipaddr ∧ f.pkt.fastPsId = 0x7631

/-- The status registers hold what the frame says: each setpoint is the one of the last record of
the payload with the supply's address, `nonce` (32 bits) and `command` are the ones of the header,
and the packet counter has moved by one. A frame for another destination changes nothing. -/
def Decodes (p : FofbParams) (f : Frame) (old new : FofbStat) : Prop :=
  (f.addressed p → new =
    { packetsRcvd := old.packetsRcvd + 1
      command := f.pkt.readbackCmd.setWidth 32
      nonce := f.pkt.nonce.setWidth 32
      setptFlt := fun ps => (lastValue (p.addr ps) f.records).getD (old.setptFlt ps) }) ∧
  (¬f.addressed p → new = old)

/-- What follows the payload, read as records, has none with the address of a supply, or one that
repeats the setpoint of the payload. -/
def TrailerHarmless (p : FofbParams) (f : Frame) (gap : List (BitVec 8)) (old : FofbStat) : Prop :=
  ∀ ps v, lastValue (p.addr ps) (recordsOf (filled f.trailer gap)) = some v →
    v = (lastValue (p.addr ps) f.records).getD (old.setptFlt ps)

/-- The status registers after a frame. -/
theorem fofbStat_receive (p : FofbParams) (f : Frame) (gap : List (BitVec 8)) {s : State}
    (hs : s.state = .idle) (hp : s.rxDvPrev = false) :
    (f.addressed p → (receive p s f.bytes gap).fofbStat =
      { packetsRcvd := s.fofbStat.packetsRcvd + 1
        command := f.pkt.readbackCmd.setWidth 32
        nonce := f.pkt.nonce.setWidth 32
        setptFlt := (f.records ++ recordsOf (filled f.trailer gap)).foldl (applyRecord p)
          s.fofbStat.setptFlt }) ∧
    (¬f.addressed p → (receive p s f.bytes gap).fofbStat = s.fofbStat) := by
  have hparts : receive p s f.bytes gap = receive p (feed (feed s (gmii p true preamble))
      (gmii p true f.pkt.header)) (f.records.flatMap Record.bytes ++ f.trailer) gap := by
    unfold receive Frame.bytes
    rw [List.append_assoc, List.append_assoc, gmii_append, gmii_append, List.append_assoc,
      List.append_assoc, feed_append, feed_append]
  obtain ⟨hdest, hid, hcmd, hnonce⟩ := f.pkt.fields_header
  have hhead := feed_head (s := feed s (gmii p true preamble)) p (by rw [feed_preamble p hs hp])
    (by rw [feed_preamble p hs hp]) (fun _ => of_mem_gmii) (map_gmii p true f.pkt.header)
    f.pkt.length_header
  have hfor : Addressed p f.pkt.header ↔ f.addressed p := by
    unfold Addressed Frame.addressed
    rw [hdest, hid]
  rw [hcmd, hnonce, feed_preamble p hs hp] at hhead
  rw [feed_preamble p hs hp] at hparts
  obtain ⟨hprev, hhead⟩ := hhead
  rw [hparts]
  constructor
  · intro ha
    rw [if_pos (hfor.mpr ha)] at hhead
    rw [receive_records p _ hhead.1, hhead.2, filled_flatMap, recordsOf_flatMap]
  · intro ha
    rw [if_neg fun h => ha (hfor.mp h)] at hhead
    obtain ⟨hidle, -, hstat⟩ := feed_ignored p hhead.1 hprev
      (f.records.flatMap Record.bytes ++ f.trailer)
    unfold receive
    rw [feed_append, (feed_idle p hidle gap).2, hstat, hhead.2]

/-- **Decoding.** For every frame received in IDLE, at every clock after it and whatever is on the
idle line, the status registers hold what the frame says exactly if it is for another controller or
its trailer is harmless. -/
theorem decodes_iff (p : FofbParams) (f : Frame) (gap : List (BitVec 8)) (s : State)
    (hs : s.state = .idle) (hp : s.rxDvPrev = false) :
    Decodes p f s.fofbStat (receive p s f.bytes gap).fofbStat ↔
      (f.addressed p → TrailerHarmless p f gap s.fofbStat) := by
  obtain ⟨hyes, hno⟩ := fofbStat_receive p f gap hs hp
  have hset : ∀ ps, (f.records ++ recordsOf (filled f.trailer gap)).foldl (applyRecord p)
      s.fofbStat.setptFlt ps = ((lastValue (p.addr ps) (recordsOf (filled f.trailer gap))).or
        (lastValue (p.addr ps) f.records)).getD (s.fofbStat.setptFlt ps) := by
    intro ps
    rw [foldl_applyRecord, lastValue_append]
  constructor
  · rintro ⟨hdec, -⟩ ha ps v hv
    have heq := hdec ha
    rw [hyes ha, FofbStat.mk.injEq] at heq
    rw [← congrFun heq.2.2.2 ps, hset, hv]
    rfl
  · intro hharm
    refine ⟨fun ha => ?_, hno⟩
    rw [hyes ha, FofbStat.mk.injEq]
    refine ⟨rfl, rfl, rfl, ?_⟩
    funext ps
    rw [hset]
    cases hv : lastValue (p.addr ps) (recordsOf (filled f.trailer gap)) with
    | none => rfl
    | some v => exact hharm ha ps v hv

/-- The headers of the stimulus with one record, by nonce. -/
def samplePkt (nonce : BitVec 64) : UdpPkt where
  macDestAddr := 0xAABBCCDDEEFF
  macSrcAddr := 0x112233445566
  macLenType := 0x0800
  ipVer := 4
  ipIhl := 5
  ipTos := 0
  totalLen := 46
  ipIdent := 0x1234
  ipFlags := 2
  ipFragoffset := 0
  ipTtl := 0x40
  ipProtocol := 0x11
  headerChecksum := 0x45E0
  ipSrcAddr := 0xC0A80001
  ipDestAddr := 0x10001202
  udpSrcPort := 0x002A
  udpDestPort := 0x002B
  udpLen := 26
  udpChecksum := 0
  fastPsId := 0x7631
  readbackCmd := 1
  nonce := nonce

/-- A frame with the first record of the stimulus, by nonce and check sequence. -/
def sampleFrame (nonce : BitVec 64) (fcs : BitVec 32) : Frame where
  pkt := samplePkt nonce
  records := [⟨0x0A0B, 0x3F000000⟩]
  padding := []
  fcs := fcs
  ipIhl := rfl
  totalLen := rfl
  udpLen := rfl
  padded := Or.inl rfl

/-- With nonce 1 the check sequence selects no supply. -/
theorem sampleFrame_decodes :
    Decodes tbParams (sampleFrame 1 0x048A0952) restState.fofbStat
      (receive tbParams restState (sampleFrame 1 0x048A0952).bytes
        (List.replicate 12 0)).fofbStat := by
  refine (decodes_iff tbParams (sampleFrame 1 0x048A0952) (List.replicate 12 0) restState rfl
    rfl).mpr ?_
  rintro - ps v hv
  have hnone : lastValue (tbParams.addr ps) (recordsOf (filled
      (sampleFrame 1 0x048A0952).trailer (List.replicate 12 0))) = none := by
    cases ps <;> decide
  rw [hnone] at hv
  simp at hv

/-- With nonce 0xD282 it starts with the address of the first supply, whose setpoint it becomes. -/
theorem sampleFrame_misread :
    (receive tbParams restState (sampleFrame 0xD282 0x0A0BCFAF).bytes
        (List.replicate 12 0)).fofbStat.setptFlt .ps1 = 0xCFAF0000 ∧
      ¬Decodes tbParams (sampleFrame 0xD282 0x0A0BCFAF) restState.fofbStat
        (receive tbParams restState (sampleFrame 0xD282 0x0A0BCFAF).bytes
          (List.replicate 12 0)).fofbStat := by
  have hset : (receive tbParams restState (sampleFrame 0xD282 0x0A0BCFAF).bytes
      (List.replicate 12 0)).fofbStat.setptFlt .ps1 = 0xCFAF0000 := by decide +kernel
  refine ⟨hset, ?_⟩
  rintro ⟨hdec, -⟩
  rw [hdec ⟨rfl, rfl⟩] at hset
  exact absurd hset (by decide)

end Psc.UdpRx
