import Psc.Records
import Psc.Adc.GainOffset
import Psc.Adc.Ltc2376

/-!
# The DCCT converters and their calibration

`dcct_adc_module.vhd`: four converter interfaces, one per supply, and a calibrator behind each. The
interfaces share everything but the data line, so they go in step, and the calibrators wait for the
first one's `data_rdy`.

1. `control_eq`: after a reset the four interfaces are always in the same state.
2. `settle_step`: a calibrator comes to rest, and re-arms, within twenty clocks of a low
   `conv_done`; a conversion takes longer.
3. `conversions_calibrated`: each start is followed by one conversion of 36 or 40 bits, and by one
   calibration of its two halves.
-/

namespace Psc.DcctModule

open Clocked Spi Ltc2376

/-- The input ports. -/
structure Input where
  reset : Bool
  start : Bool
  numbitsSel : Bool
  sdi : Ps → Bool
  dcctParams : Ps → Adc.DcctInput → Adc.Params 20

/-- The registers of the entities. -/
structure State where
  adc : Ps → Ltc2376.State
  gainoff : Ps → Adc.State Adc.DcctInput 20

/-- The ports of a converter interface. -/
def adcIn (i : Input) (ps : Ps) : Ltc2376.Input := ⟨i.reset, i.start, i.numbitsSel, i.sdi ps⟩

/-- `conv_done`. -/
def convDone (s : State) : Bool := (s.adc .ps1).fsm.dataRdy

/-- `dcct0_raw` and `dcct1_raw`. -/
def raw (s : State) (ps : Ps) : Adc.DcctInput → BitVec 20
  | .dcct0 => (s.adc ps).fsm.dcct1
  | .dcct1 => (s.adc ps).fsm.dcct2

/-- The ports of a calibrator. -/
def gainIn (s : State) (i : Input) (ps : Ps) : Adc.Input Adc.DcctInput 20 :=
  ⟨i.reset, convDone s, raw s ps, i.dcctParams ps⟩

/-- One clock. -/
def step (s : State) (i : Input) : State where
  adc ps := Ltc2376.step (s.adc ps) (adcIn i ps)
  gainoff ps := Adc.dcctGainoffset (s.gainoff ps) (gainIn s i ps)

/-- A calibration begins. -/
def Calibrates (s : State) (ps : Ps) : Prop :=
  (s.gainoff ps).state = .idle ∧ convDone s = true ∧ (s.gainoff ps).convDoneLast = false

/-! ## The interfaces go in step -/

/-- The state machine of an interface without its data and its output lines. -/
def control (f : Fsm) : Fsm :=
  { f with shiftReg := 0, dcct1 := 0, dcct2 := 0, cnv := false, sclk := false }

/-- Two interfaces are in step. -/
def SameControl (a b : Ltc2376.State) : Prop :=
  a.divider = b.divider ∧ control a.fsm = control b.fsm

/-- The data line does not reach the control registers. -/
theorem control_fsm (enb : Bool) (f : Fsm) (i : Input) (ps ps' : Ps) :
    control (fsm enb f (adcIn i ps)) = control (fsm enb (control f) (adcIn i ps')) := by
  unfold fsm
  cases hr : (adcIn i ps).reset with
  | true =>
    rw [show (adcIn i ps').reset = true from hr]
    rfl
  | false =>
    rw [show (adcIn i ps').reset = false from hr]
    cases enb with
    | false => rfl
    | true =>
      simp only [Bool.false_eq_true, if_false, if_true, tick]
      cases hs : f.state with
      | sclkHi | done =>
        simp only [control, hs]
        rfl
      | _ =>
        simp only [control, hs]
        split_ifs <;> rfl

theorem sameControl_step {a b : Ltc2376.State} (i : Input) (ps ps' : Ps) (h : SameControl a b) :
    SameControl (Ltc2376.step a (adcIn i ps)) (Ltc2376.step b (adcIn i ps')) := by
  obtain ⟨hdiv, hcontrol⟩ := h
  unfold Ltc2376.step SameControl
  rw [hdiv]
  refine ⟨rfl, ?_⟩
  dsimp only
  rw [control_fsm _ a.fsm i ps ps, control_fsm _ b.fsm i ps' ps, hcontrol]

theorem sameControl_reset (a b : Ltc2376.State) {i : Input} (ps ps' : Ps) (hr : i.reset = true) :
    SameControl (Ltc2376.step a (adcIn i ps)) (Ltc2376.step b (adcIn i ps')) := by
  have ha : (adcIn i ps).reset = true := hr
  have hb : (adcIn i ps').reset = true := hr
  simp only [SameControl, Ltc2376.step, clkdivide, fsm, ha, hb, if_true]
  exact ⟨trivial, rfl⟩

/-! ## A calibrator comes to rest -/

section Settle

variable {g : Adc.State Adc.DcctInput 20} {i : Adc.Input Adc.DcctInput 20}

/-- The clocks, at most, until a calibrator is ready for the next conversion. -/
def settle (g : Adc.State Adc.DcctInput 20) : ℕ :=
  match g.state with
  | .idle => if g.convDoneLast then 1 else 0
  | .applyOffsets => 20
  | .applyGains => 19
  | .multDly => (6 - g.multdlycnt).toNat + 2

theorem settle_le (g : Adc.State Adc.DcctInput 20) : settle g ≤ 20 := by
  have hcnt := (6 - g.multdlycnt).isLt
  unfold settle
  cases g.state with
  | idle => dsimp only; split_ifs <;> omega
  | _ => dsimp only; omega

theorem settle_eq_zero_iff :
    settle g = 0 ↔ g.state = .idle ∧ g.convDoneLast = false := by
  unfold settle
  cases hs : g.state <;> simp

/-- With `conv_done` low a calibrator settles, clock by clock. -/
theorem settle_step (hr : i.reset = false) (hdone : i.convDone = false) :
    settle (Adc.dcctGainoffset g i) ≤ settle g - 1 := by
  unfold Adc.dcctGainoffset Adc.step
  rw [if_neg (by simp [hr])]
  cases hs : g.state with
  | idle => simp [settle, hs, hdone]
  | applyOffsets => simp [settle, hs]
  | applyGains => simp [settle, hs]
  | multDly =>
    dsimp only
    by_cases h6 : g.multdlycnt = 6
    · rw [if_pos h6]
      simp only [settle, hs]
      split_ifs <;> omega
    · have hne : g.multdlycnt.toNat ≠ 6 := fun h => h6 (BitVec.eq_of_toNat_eq h)
      have hlt := g.multdlycnt.isLt
      rw [if_neg h6]
      simp only [settle, hs, BitVec.toNat_sub, BitVec.toNat_add]
      simp
      omega

/-- **A calibration.** From a rising `conv_done` on, the calibrator works for ten clocks, whatever
`conv_done` does; the results are those of the samples one clock later. -/
theorem calibration {inp : ℕ → Adc.Input Adc.DcctInput 20} (hidle : g.state = .idle)
    (hlast : g.convDoneLast = false) (hstart : (inp 0).convDone = true)
    (hr : ∀ n < 10, (inp n).reset = false) :
    (∀ n < 10, 0 < n → (run Adc.dcctGainoffset g inp n).state ≠ .idle ∧
      (run Adc.dcctGainoffset g inp n).done = false) ∧
    (run Adc.dcctGainoffset g inp 10).state = .idle ∧
    (run Adc.dcctGainoffset g inp 10).done = true ∧
    (run Adc.dcctGainoffset g inp 10).out = fun c =>
      Adc.fixedMul ((inp 1).raw c - ((inp 1).params c).offset) ((inp 2).params c).gain 4 := by
  change (∀ n < 10, 0 < n → (run Adc.step g inp n).state ≠ .idle ∧
      (run Adc.step g inp n).done = false) ∧ (run Adc.step g inp 10).state = .idle ∧
    (run Adc.step g inp 10).done = true ∧ (run Adc.step g inp 10).out = _
  have h1 : run Adc.step g inp 1 =
      { g with done := false, convDoneLast := true, state := .applyOffsets } := by
    rw [run_succ, run_zero, Adc.step, if_neg (by simp [hr 0 (by omega)]), hidle, hstart, hlast]
    rfl
  have h2 : run Adc.step g inp 2 = { run Adc.step g inp 1 with
      oc := fun c => (inp 1).raw c - ((inp 1).params c).offset, state := .applyGains } := by
    rw [run_succ, Adc.step, if_neg (by simp [hr 1 (by omega)]), h1]
  have h3 : run Adc.step g inp 3 = { run Adc.step g inp 2 with
      out := fun c =>
        Adc.fixedMul ((inp 1).raw c - ((inp 1).params c).offset) ((inp 2).params c).gain 4,
      state := .multDly, multdlycnt := 0 } := by
    rw [run_succ, Adc.step, if_neg (by simp [hr 2 (by omega)]), h2]
  have hdelay := @Adc.run_delay Adc.DcctInput 20 (run Adc.step g inp 3) (fun k => inp (3 + k))
    (fun n hn => hr (3 + n) (by omega)) (by rw [h3]) (by rw [h3])
  have hend : run Adc.step g inp 10 =
      { run Adc.step g inp 3 with multdlycnt := 6, state := .idle, done := true } := by
    rw [show 10 = 3 + 6 + 1 from rfl, run_succ, run_add, hdelay 6 le_rfl, Adc.step,
      if_neg (by simp [hr 9 (by omega)])]
    dsimp only
    rw [h3]
    rfl
  refine ⟨?_, by rw [hend], by rw [hend], by rw [hend, h3]⟩
  intro n hn hpos
  rcases Nat.lt_or_ge n 3 with hlt | hge
  · interval_cases n
    · rw [h1]
      exact ⟨by simp, rfl⟩
    · rw [h2, h1]
      exact ⟨by simp, rfl⟩
  · obtain ⟨k, rfl⟩ := Nat.exists_eq_add_of_le hge
    rw [run_add, hdelay k (by omega), h3, h2, h1]
    exact ⟨by simp, rfl⟩

end Settle

/-! ## Runs -/

/-- A run from a reset in clock 0, with `reset` low and the resolution held before clock `u`, and
the starts farther apart than a conversion. -/
structure SpacedRun (r : Bool) (inp : ℕ → Input) (u : ℕ) : Prop where
  reset : (inp 0).reset = true
  low : ∀ n, 0 < n → n < u → (inp n).reset = false
  held : ∀ n, 0 < n → n < u → (inp n).numbitsSel = r
  spaced : ∀ m n, 0 < m → m < n → n < u → (inp m).start = true → (inp n).start = true →
    m + conversionClocks r < n

section Run

variable {r : Bool} {s : State} {inp : ℕ → Input} {u : ℕ}

theorem adc_run (s : State) (inp : ℕ → Input) (ps : Ps) (n : ℕ) : (run step s inp n).adc ps =
    run Ltc2376.step (s.adc ps) (fun k => adcIn (inp k) ps) n := by
  induction n with
  | zero => rfl
  | succ n ih => rw [run_succ, run_succ, ← ih]; rfl

theorem gainoff_run_succ (s : State) (inp : ℕ → Input) (ps : Ps) (n : ℕ) :
    (run step s inp (n + 1)).gainoff ps = Adc.dcctGainoffset ((run step s inp n).gainoff ps)
      (gainIn (run step s inp n) (inp n) ps) := rfl

/-- **In step.** -/
theorem sameControl_run (h : SpacedRun r inp u) (ps ps' : Ps) {n : ℕ} (hn : 0 < n) :
    SameControl ((run step s inp n).adc ps) ((run step s inp n).adc ps') := by
  induction n, hn using Nat.le_induction with
  | base => exact sameControl_reset _ _ ps ps' h.reset
  | succ n _ ih => exact sameControl_step (inp n) ps ps' ih

theorem dataRdy_eq (h : SpacedRun r inp u) (ps : Ps) {n : ℕ} (hn : 0 < n) :
    ((run step s inp n).adc ps).fsm.dataRdy = convDone (run step s inp n) := by
  have hsame := congrArg Fsm.dataRdy (@sameControl_run r s inp u h ps .ps1 n hn).2
  exact hsame

theorem ok_run (h : SpacedRun r inp u) (ps : Ps) {n : ℕ} (hn : 0 < n) (hu : n ≤ u) :
    ((run step s inp n).adc ps).divider.Ok := by
  induction n, hn using Nat.le_induction with
  | base => exact (Ltc2376.step_reset (s.adc ps) h.reset).2
  | succ n hn ih => exact ok_step (h.low n hn (by omega)) (ih (by omega))

theorem SpacedRun.started (h : SpacedRun r inp u) {t : ℕ} (hpos : 0 < t)
    (hstart : (inp t).start = true) (hu : t + conversionClocks r < u) (ps : Ps) :
    Started r (fun k => adcIn (inp k) ps) t where
  start := hstart
  alone n htn hn := by
    by_contra hs
    have := h.spaced t n hpos htn (by omega) hstart (by simpa [adcIn] using hs)
    omega
  low n htn hn := h.low n (by omega) (by omega)
  held n htn hn := h.held n (by omega) (by omega)

/-- At every clock an interface is at rest, or in the conversion of a start that found it so. -/
theorem atRest_or_converting (h : SpacedRun r inp u) (ps : Ps) {n : ℕ} (hn : 0 < n) (hu : n < u) :
    AtRest ((run step s inp n).adc ps).fsm ∨
      ∃ t, 0 < t ∧ t < n ∧ n ≤ t + conversionClocks r ∧ (inp t).start = true ∧
        AtRest ((run step s inp t).adc ps).fsm := by
  induction n, hn using Nat.le_induction with
  | base => exact .inl (Ltc2376.step_reset (s.adc ps) h.reset).1
  | succ n hn ih =>
    have hr := h.low n hn (by omega)
    have hrest_succ : AtRest ((run step s inp n).adc ps).fsm → (inp n).start = false →
        AtRest ((run step s inp (n + 1)).adc ps).fsm :=
      fun hrest hs => (@step_atRest _ (adcIn (inp n) ps) hr hs hrest).1
    rcases ih (by omega) with hrest | ⟨t, hpos, htn, hle, hstart, hrest⟩
    · cases hs : (inp n).start with
      | true => exact .inr ⟨n, hn, n.lt_succ_self, by unfold conversionClocks; omega, hs, hrest⟩
      | false => exact .inl (hrest_succ hrest hs)
    · rcases Nat.lt_or_ge n (t + conversionClocks r) with hlt | hge
      · exact .inr ⟨t, hpos, by omega, by omega, hstart, hrest⟩
      · -- the conversion is over, and the next start is later
        obtain rfl : n = t + conversionClocks r := by omega
        have hst := h.started hpos hstart (by omega) ps
        have hok := @ok_run r s inp u h ps t hpos (by omega)
        rw [adc_run] at hrest hok
        obtain ⟨_, -, -, -, -, hend⟩ := conversion hst hok hrest
        left
        refine hrest_succ ?_ (hst.alone _ htn le_rfl)
        rw [adc_run]
        exact hend

theorem atRest_of_start (h : SpacedRun r inp u) (ps : Ps) {t : ℕ} (hpos : 0 < t) (hu : t < u)
    (hstart : (inp t).start = true) : AtRest ((run step s inp t).adc ps).fsm := by
  rcases @atRest_or_converting r s inp u h ps t hpos hu with hrest | ⟨t', hpos', htt', hle, hs, -⟩
  · exact hrest
  · have := h.spaced t' t hpos' htt' hu hs hstart
    omega

theorem settled_of_low (ps : Ps) {t n : ℕ} (htn : t + 20 ≤ n)
    (hr : ∀ k, t ≤ k → k < n → (inp k).reset = false)
    (hlow : ∀ k, t ≤ k → k < n → convDone (run step s inp k) = false) :
    ((run step s inp n).gainoff ps).state = .idle ∧
      ((run step s inp n).gainoff ps).convDoneLast = false := by
  have hrun : ∀ k, t + k ≤ n → settle ((run step s inp (t + k)).gainoff ps) ≤ 20 - k := by
    intro k
    induction k with
    | zero => exact fun _ => settle_le _
    | succ k ih =>
      intro hk
      have hle := ih (by omega)
      have hstep := @settle_step ((run step s inp (t + k)).gainoff ps)
        (gainIn (run step s inp (t + k)) (inp (t + k)) ps) (hr (t + k) (by omega) (by omega))
        (hlow (t + k) (by omega) (by omega))
      rw [← Nat.add_assoc, gainoff_run_succ]
      omega
  obtain ⟨k, rfl⟩ := Nat.exists_eq_add_of_le (show t ≤ n by omega)
  exact settle_eq_zero_iff.mp (by have := hrun k le_rfl; omega)

/-- What an interface does from a start on, as long as there is no other. -/
theorem converts (h : SpacedRun r inp u) (ps : Ps) {t n : ℕ} (hpos : 0 < t)
    (hstart : (inp t).start = true) (hn : t + conversionClocks r ≤ n) (hu : n < u)
    (hquiet : ∀ m, t < m → m < n → (inp m).start = false) :
    ∃ v, t + 300 < v ∧ v + 5 ≤ t + conversionClocks r ∧
      (∀ m, t < m → m ≤ n →
        (((run step s inp m).adc ps).fsm.dataRdy = true ↔ v ≤ m ∧ m < v + 5)) ∧
      ∀ m, v ≤ m → m ≤ n → Converted r ((run step s inp m).adc ps).fsm
        (sampled (s.adc ps) (fun k => adcIn (inp k) ps) t n) := by
  have hst := h.started hpos hstart (by omega) ps
  have hok := @ok_run r s inp u h ps t hpos (by omega)
  have hrest := @atRest_of_start r s inp u h ps t hpos (by omega) hstart
  simp only [adc_run] at hrest hok ⊢
  obtain ⟨v, hlate, hv, hrdy, hconv, hend⟩ := conversion hst hok hrest
  have hlater := fun m (hm : t + conversionClocks r ≤ m) (hmn : m ≤ n) =>
    run_atRest hend hm fun k hk hkm =>
      ⟨hquiet k (by omega) (by omega), h.low k (by omega) (by omega)⟩
  have hbits := (hlater n hn le_rfl).2.1 t (by omega)
  refine ⟨v, hlate, hv, fun m htm hmn => ?_, fun m hvm hmn => ?_⟩
  · rcases Nat.lt_or_ge (t + conversionClocks r) m with hlt | hle
    · have := (hlater m hlt.le hmn).1.dataRdy
      exact iff_of_false (by simp [this]) (by omega)
    · exact hrdy m htm hle
  · rw [hbits]
    rcases Nat.lt_or_ge (t + conversionClocks r) m with hlt | hle
    · obtain ⟨-, -, h1, h2⟩ := hlater m hlt.le hmn
      obtain ⟨x, y, hxy, hx, hy⟩ := hconv _ (by omega) le_rfl
      exact ⟨x, y, hxy, h2.trans hx, h1.trans hy⟩
    · exact hconv m hvm hle

theorem gainoff_run (s : State) (inp : ℕ → Input) (ps : Ps) (v k : ℕ) :
    (run step s inp (v + k)).gainoff ps = run Adc.dcctGainoffset ((run step s inp v).gainoff ps)
      (fun j => gainIn (run step s inp (v + j)) (inp (v + j)) ps) k := by
  induction k with
  | zero => rfl
  | succ k ih => rw [run_succ, ← ih]; rfl

end Run

/-- **Conversions.** From a start on, up to the next, each interface gives one pulse of `sclk` for
each bit of its resolution, and `data_rdy` comes up once, with the first half of the bits taken in
`dcct2` and the second in `dcct1`, sign-extended; and its calibrator calibrates these once, however
long `data_rdy` stays up. -/
theorem conversions_calibrated {r : Bool} {s : State} {inp : ℕ → Input} {u t n : ℕ}
    (h : SpacedRun r inp u) (hpos : 0 < t) (hstart : (inp t).start = true)
    (hn : t + conversionClocks r ≤ n) (hu : n + 5 ≤ u)
    (hquiet : ∀ m, t < m → m < n → (inp m).start = false) :
    ∃ v, t < v ∧ v + 5 ≤ t + conversionClocks r ∧ ∀ ps,
      (sampled (s.adc ps) (fun k => adcIn (inp k) ps) t n).length = numBits r ∧
      (∀ m, t < m → m ≤ n →
        (((run step s inp m).adc ps).fsm.dataRdy = true ↔ v ≤ m ∧ m < v + 5)) ∧
      (∀ m, v ≤ m → m ≤ n → Converted r ((run step s inp m).adc ps).fsm
        (sampled (s.adc ps) (fun k => adcIn (inp k) ps) t n)) ∧
      (∀ m, t < m → m ≤ n → (Calibrates (run step s inp m) ps ↔ m = v)) ∧
      (∀ m, v < m → m < v + 10 → ((run step s inp m).gainoff ps).done = false) ∧
      ((run step s inp (v + 10)).gainoff ps).done = true ∧
      ((run step s inp (v + 10)).gainoff ps).out = fun c =>
        Adc.fixedMul (raw (run step s inp (v + 1)) ps c -
          ((inp (v + 1)).dcctParams ps c).offset) ((inp (v + 2)).dcctParams ps c).gain 4 := by
  obtain ⟨v, hlate, hv, hrdy₁, -⟩ := @converts r s inp u h .ps1 t n hpos hstart hn (by omega) hquiet
  have hdone : ∀ m, t < m → m ≤ n → (convDone (run step s inp m) = true ↔ v ≤ m ∧ m < v + 5) :=
    hrdy₁
  refine ⟨v, by omega, hv, fun ps => ?_⟩
  obtain ⟨w, hlate', hw, hrdy, hconv⟩ :=
    @converts r s inp u h ps t n hpos hstart hn (by omega) hquiet
  -- the interfaces are in step
  have hsame : ∀ m, t < m → m ≤ n → (v ≤ m ∧ m < v + 5 ↔ w ≤ m ∧ m < w + 5) := by
    intro m htm hmn
    rw [← hdone m htm hmn, ← hrdy m htm hmn, @dataRdy_eq r s inp u h ps m (by omega)]
  obtain rfl : v = w := by
    have h1 := (hsame v (by omega) (by omega)).mp ⟨le_rfl, by omega⟩
    rcases Nat.lt_or_ge w v with hlt | hge
    · have h2 := (hsame w (by omega) (by omega)).mpr ⟨le_rfl, by omega⟩
      omega
    · omega
  have hr : ∀ k, t ≤ k → k < u → (inp k).reset = false := fun k hk hku => h.low k (by omega) hku
  have hlow : ∀ k, t + 1 ≤ k → k < v → convDone (run step s inp k) = false := by
    intro k hk hkv
    have := hdone k (by omega) (by omega)
    rw [← Bool.not_eq_true, this]
    omega
  obtain ⟨hidle, hlast⟩ := @settled_of_low s inp ps (t + 1) v (by omega)
    (fun k hk hkv => hr k (by omega) (by omega)) hlow
  have hup := (hdone v (by omega) (by omega)).mpr ⟨le_rfl, by omega⟩
  obtain ⟨hbusy, -, hend, hout⟩ := @calibration ((run step s inp v).gainoff ps)
    (fun j => gainIn (run step s inp (v + j)) (inp (v + j)) ps) hidle hlast hup
    fun k hk => hr (v + k) (by omega) (by omega)
  simp only [← gainoff_run] at hbusy hend hout
  refine ⟨(hconv n (by omega) le_rfl).length, hrdy, hconv, ?_, ?_, hend, hout⟩
  · intro m htm hmn
    constructor
    · rintro ⟨hidle', hup', -⟩
      obtain ⟨hle, hlt⟩ := (hdone m htm hmn).mp hup'
      by_contra hne
      obtain ⟨k, rfl⟩ := Nat.exists_eq_add_of_le hle
      exact (hbusy k (by omega) (by omega)).1 hidle'
    · rintro rfl
      exact ⟨hidle, hup, hlast⟩
  · intro m hvm hm
    obtain ⟨k, rfl⟩ := Nat.exists_eq_add_of_le hvm.le
    exact (hbusy k (by omega) (by omega)).2

/-- The registers at configuration. -/
def restState : State where
  adc _ := ⟨⟨0, false⟩, ⟨.idle, 0, 0, 0, false, false, false, 0, 0, false⟩⟩
  gainoff _ := Adc.restState Adc.DcctInput 20

/-- A reset, and starts in clocks 1 and 1001, for 18 bits. The first supply's line is high during
the first conversion, the second's during the second. The gain is 1 and the offset 7. -/
def twoStarts (n : ℕ) : Input where
  reset := n == 0
  start := n == 1 || n == 1001
  numbitsSel := false
  sdi ps := (ps == .ps1 && decide (n < 1000)) || (ps == .ps2 && decide (1000 ≤ n))
  dcctParams _ _ := ⟨7, 0x100000⟩

theorem twoStarts_iff {n : ℕ} : (twoStarts n).start = true ↔ n = 1 ∨ n = 1001 := by
  simp [twoStarts]

theorem spacedRun_twoStarts (u : ℕ) : SpacedRun false twoStarts u where
  reset := rfl
  low _ hn _ := beq_false_of_ne hn.ne'
  held _ _ _ := rfl
  spaced m n hm hmn _ hsm hsn := by
    rw [twoStarts_iff] at hsm hsn
    have hclocks : conversionClocks false = 691 := rfl
    omega

theorem reading_of_level {ps : Ps} {t n m : ℕ} (b : Bool)
    (hb : ∀ k, t ≤ k → k < n → (twoStarts k).sdi ps = b)
    (h : Converted false ((run step restState twoStarts m).adc ps).fsm
      (sampled (restState.adc ps) (fun k => adcIn (twoStarts k) ps) t n)) (c : Adc.DcctInput) :
    Adc.fixedMul (raw (run step restState twoStarts m) ps c - 7) 0x100000 4 =
      bif b then -8 else -7 := by
  obtain ⟨h1, h2⟩ := h.of_level (record_eq_replicate hb)
  have hraw : raw (run step restState twoStarts m) ps c = (level 18 b).signExtend 20 := by
    cases c with
    | dcct0 => exact h1
    | dcct1 => exact h2
  rw [hraw]
  cases b <;> decide

/-- Two conversions of 36 bits, each with one calibration: the first supply reads -1 - 7 and then
-7, the second -7 and then -1 - 7. -/
theorem two_conversions_calibrated :
    ∃ v v', 1 < v ∧ v + 5 ≤ 692 ∧ 1001 < v' ∧ v' + 5 ≤ 1692 ∧
      (∀ m, 1 < m → m ≤ 1000 → (Calibrates (run step restState twoStarts m) .ps1 ↔ m = v)) ∧
      ((run step restState twoStarts (v + 10)).gainoff .ps1).out = (fun _ => -8) ∧
      ((run step restState twoStarts (v + 10)).gainoff .ps2).out = (fun _ => -7) ∧
      ((run step restState twoStarts (v' + 10)).gainoff .ps1).out = (fun _ => -7) ∧
      ((run step restState twoStarts (v' + 10)).gainoff .ps2).out = fun _ => -8 := by
  have hclocks : conversionClocks false = 691 := rfl
  have hquiet : ∀ m, m ≠ 1 → m ≠ 1001 → (twoStarts m).start = false := by
    intro m h1 h1001
    rw [← Bool.not_eq_true, twoStarts_iff]
    omega
  obtain ⟨v, hv, hv', hall⟩ := conversions_calibrated (s := restState) (n := 1000)
    (spacedRun_twoStarts 1005) Nat.one_pos rfl (by omega) le_rfl
    fun m hm hm' => hquiet m (by omega) (by omega)
  obtain ⟨w, hw, hw', hall'⟩ := conversions_calibrated (s := restState) (n := 2000)
    (spacedRun_twoStarts 2005) (t := 1001) (by omega) rfl (by omega) le_rfl
    fun m hm hm' => hquiet m (by omega) (by omega)
  obtain ⟨-, -, hconv, hcal, -, -, hout⟩ := hall .ps1
  obtain ⟨-, -, hconv₂, -, -, -, hout₂⟩ := hall .ps2
  obtain ⟨-, -, hconv', -, -, -, hout'⟩ := hall' .ps1
  obtain ⟨-, -, hconv₂', -, -, -, hout₂'⟩ := hall' .ps2
  refine ⟨v, w, hv, by omega, hw, by omega, hcal, hout.trans (funext fun c => ?_),
    hout₂.trans (funext fun c => ?_), hout'.trans (funext fun c => ?_),
    hout₂'.trans (funext fun c => ?_)⟩
  · exact reading_of_level true (fun k _ _ => by simp [twoStarts]; omega)
      (hconv (v + 1) (by omega) (by omega)) c
  · exact reading_of_level false (fun k _ _ => by simp [twoStarts]; omega)
      (hconv₂ (v + 1) (by omega) (by omega)) c
  · exact reading_of_level false (fun k _ _ => by simp [twoStarts]; omega)
      (hconv' (w + 1) (by omega) (by omega)) c
  · exact reading_of_level true (fun k _ _ => by simp [twoStarts]; omega)
      (hconv₂' (w + 1) (by omega) (by omega)) c

end Psc.DcctModule
