import Psc.Adc.Accumulator
import Psc.Top.Readout
import Psc.Top.TenkhzGen

/-!
# The averages over the ticks

`top.vhd`: the tick generator starts the converters, and the end of a DCCT conversion starts the
averages. With a step of the oscillator that leaves a conversion its time, whatever is
resynchronised:

1. `adcDone_iff`: `adc_done` comes once after each tick.
2. `mon_stays`: the monitors' readings are those at the tick until then, also after the first tick.
3. `averages_of_ticks`: so each tick adds one sample to each average. That of a DCCT is of the
tick's own conversion, that of a monitor of the conversion before.
-/

namespace Psc.Averages

open Clocked

/-- The input ports of the entities. -/
structure Input where
  reset : Bool
  stepSize : BitVec 32
  onehzTrig : Bool
  numbitsSel : Bool
  dcctAdcSdo : Ps → Bool
  dcctParams : Ps → Adc.DcctInput → Adc.Params 20
  aveMode : Ps → BitVec 2
  numchanSel : Bool
  monAdcSdo : Fin 3 → Bool
  monParams : Ps → Adc.MonInput → Adc.Params 16
  awready : Bool
  wready : Bool
  bvalid : Bool

/-- The registers. -/
structure State where
  gen : TenkhzGen.State
  readout : Readout.State
  accum : Ps → Accumulator.State

/-- The ports of `tenkhz_gen`. -/
def genIn (i : Input) : Nco.Input := ⟨i.reset, i.stepSize, i.onehzTrig⟩

/-- The ports of the converters and of the snapshot writer. -/
def readoutIn (s : State) (i : Input) : Readout.Input :=
  ⟨i.reset, s.gen.trig, i.numbitsSel, i.dcctAdcSdo, i.dcctParams, i.numchanSel, i.monAdcSdo,
    i.monParams, i.awready, i.wready, i.bvalid⟩

/-- The ports of `adc_accumulator` for a supply. -/
def accumIn (s : State) (i : Input) (ps : Ps) : Accumulator.Input :=
  ⟨i.reset, Readout.adcDone s.readout, i.aveMode ps, (s.readout.dcct.gainoff ps).out,
    (s.readout.mon.gainoff ps).out⟩

/-- One clock. -/
def step (s : State) (i : Input) : State where
  gen := TenkhzGen.step s.gen (genIn i)
  readout := Readout.step s.readout (readoutIn s i)
  accum ps := Accumulator.step (s.accum ps) (accumIn s i ps)

/-- `tenkhz_trig`. -/
def tick (s : State) (inp : ℕ → Input) (n : ℕ) : Bool := (run step s inp n).gen.trig

/-- A run from configuration and a reset in clock 0, at one resolution and with one mode for each
supply. The step of the oscillator is constant, and half a turn takes 1700 clocks. -/
structure Powered (d : ℕ) (r : Bool) (mode : Ps → BitVec 2) (s : State) (inp : ℕ → Input) :
    Prop where
  steady : TenkhzGen.Steady d fun n => genIn (inp n)
  slow : 1700 * d ≤ 2 ^ 31
  first : s.gen.trig = false
  held : ∀ n, 0 < n → (inp n).numbitsSel = r
  mode : ∀ n ps, (inp n).aveMode ps = mode ps
  dcct : Adc.Ready (s.readout.dcct.gainoff .ps1)
  mon : ∀ ps, Adc.Ready (s.readout.mon.gainoff ps)
  accum : ∀ ps, s.accum ps = Accumulator.powerOn

section Run

variable {d : ℕ} {r : Bool} {mode : Ps → BitVec 2} {s : State} {inp : ℕ → Input} {t v n : ℕ}

/-- What the converters and the writer are given. -/
def readoutRun (s : State) (inp : ℕ → Input) (n : ℕ) : Readout.Input :=
  readoutIn (run step s inp n) (inp n)

theorem readout_run (s : State) (inp : ℕ → Input) (n : ℕ) : (run step s inp n).readout =
    run Readout.step s.readout (readoutRun s inp) n :=
  run_map step s inp State.readout readoutIn (fun _ _ => rfl) n

theorem accum_run (h : Powered d r mode s inp) (ps : Ps) (n : ℕ) : (run step s inp n).accum ps =
    run Accumulator.step Accumulator.powerOn
      (fun n => accumIn (run step s inp n) (inp n) ps) n := by
  rw [← h.accum ps]
  exact run_map step s inp (fun s => s.accum ps) (fun s i => accumIn s i ps) (fun _ _ => rfl) n

theorem tick_eq (s : State) (inp : ℕ → Input) (n : ℕ) :
    tick s inp n = TenkhzGen.tick s.gen (fun n => genIn (inp n)) n := by
  have hgen : (run step s inp n).gen = run TenkhzGen.step s.gen (fun n => genIn (inp n)) n :=
    run_map step s inp State.gen (fun _ => genIn) (fun _ _ => rfl) n
  unfold tick TenkhzGen.tick
  rw [hgen]

theorem pos_of_tick (h : Powered d r mode s inp) (ht : tick s inp t = true) : 0 < t := by
  rcases Nat.eq_zero_or_pos t with rfl | hpos
  · have hlow : tick s inp 0 = false := h.first
    rw [hlow] at ht
    cases ht
  · exact hpos

theorem spaced (h : Powered d r mode s inp) : Spaced (tick s inp) 1700 := by
  intro t t' htt' ht ht'
  have hpos := pos_of_tick h ht
  rw [tick_eq] at ht ht'
  have hfar := TenkhzGen.far_of_ticks h.steady hpos htt' ht ht'
  have hle : 1700 ≤ t' - t := Nat.le_of_mul_le_mul_right (h.slow.trans hfar) h.steady.pos
  omega

theorem readout (h : Powered d r mode s inp) : Readout.Powered r (readoutRun s inp) where
  reset := h.steady.reset
  low := h.steady.low
  held := h.held
  spaced m n _ hmn hm hn := spaced h m n hmn hm hn

/-! ## One start for each tick -/

/-- The conversion of a tick. -/
def Delivers (r : Bool) (s : State) (inp : ℕ → Input) (t v : ℕ) : Prop :=
  DcctModule.Delivers r s.readout.dcct (fun n => Readout.dcctIn (readoutRun s inp n)) t v

theorem exists_delivers (h : Powered d r mode s inp) (ht : tick s inp t = true) :
    ∃ v, Delivers r s inp t v :=
  DcctModule.exists_delivers (readout h).dcct (pos_of_tick h ht) ht

theorem Delivers.bounds (hd : Delivers r s inp t v) : t + 300 < v ∧ v + 5 ≤ t + 731 := by
  have hclocks := Readout.conversionClocks_le r
  have hsoon : v + 5 ≤ t + Ltc2376.conversionClocks r := DcctModule.Delivers.soon hd
  exact ⟨DcctModule.Delivers.late hd, by omega⟩

/-- `adc_done` comes ten clocks after the data of each tick, and at no other time. -/
theorem adcDone_iff (h : Powered d r mode s inp) (hn : 0 < n) :
    Readout.adcDone (run step s inp n).readout = true ↔
      ∃ t v, tick s inp t = true ∧ Delivers r s inp t v ∧ n = v + 10 := by
  have hrun : (run step s inp n).readout.dcct.gainoff .ps1 =
      run Adc.step (s.readout.dcct.gainoff .ps1) (DcctModule.gainRun s.readout.dcct
        (fun n => Readout.dcctIn (readoutRun s inp n)) .ps1) n := by
    rw [readout_run, Readout.dcct_run]
    exact run_map DcctModule.step s.readout.dcct _ (fun s => s.gainoff .ps1)
      (fun s i => DcctModule.gainIn s i .ps1) (fun _ _ => rfl) n
  have hpulsed := DcctModule.pulsed (s := s.readout.dcct) (readout h).dcct .ps1
  unfold Readout.adcDone
  rw [hrun]
  rcases Nat.lt_or_ge 21 n with hlate | hsoon
  · rw [Adc.done_iff hpulsed hlate]
    constructor
    · rintro ⟨v, hv, rfl⟩
      obtain ⟨t, -, ht, hd⟩ := DcctModule.start_of_ends (readout h).dcct hv
      exact ⟨t, v, ht, hd, rfl⟩
    · rintro ⟨t, v, ht, hd, rfl⟩
      exact ⟨v, DcctModule.Delivers.ends_self (readout h).dcct (pos_of_tick h ht) ht hd, rfl⟩
  · have hnone : ∀ m < n, DcctModule.ends s.readout.dcct
        (fun n => Readout.dcctIn (readoutRun s inp n)) m = false := by
      intro m hm
      by_contra hup
      have := hpulsed.late m (by simpa using hup)
      omega
    refine iff_of_false ?_ ?_
    · simp [(Adc.ready_before hpulsed h.dcct h.steady.reset hnone).2.2 hn]
    · rintro ⟨t, v, -, hd, rfl⟩
      have := hd.bounds
      omega

theorem dcct_stays (h : Powered d r mode s inp) (ht : tick s inp t = true)
    (hd : Delivers r s inp t v) (hn : v + 3 ≤ n) (hn' : n ≤ t + 2002) (ps : Ps) :
    ((run step s inp n).readout.dcct.gainoff ps).out =
      DcctModule.readings s.readout.dcct (fun n => Readout.dcctIn (readoutRun s inp n)) v ps := by
  rw [readout_run]
  exact Readout.dcct_after (readout h) (pos_of_tick h ht) ht hd hn hn' ps

/-- What is read of a monitor stays from a tick to the end of its conversion. -/
theorem mon_stays (h : Powered d r mode s inp) (ht : tick s inp t = true) (hn : t ≤ n)
    (hn' : n ≤ t + 1690) (ps : Ps) : ((run step s inp n).readout.mon.gainoff ps).out =
      ((run step s inp t).readout.mon.gainoff ps).out := by
  have hpos := pos_of_tick h ht
  rw [readout_run, readout_run]
  by_cases hprev : ∃ u, u < t ∧ tick s inp u = true
  · obtain ⟨u₀, hu₀t, hu₀⟩ := hprev
    obtain ⟨u, -, hut, hu, hlast⟩ := exists_last_tick hu₀ hu₀t
    have hticks : Readout.Ticks (readoutRun s inp) u t := ⟨pos_of_tick h hu, hut, hu, ht, hlast⟩
    rw [Readout.mon_at (readout h) hticks hn hn' ps,
      Readout.mon_at (readout h) hticks le_rfl (by omega) ps]
  · have hnone : ∀ m, m < t + 1688 → MonModule.ends s.readout.mon
        (fun n => Readout.monIn (readoutRun s inp n)) m = false := by
      intro m hm
      by_contra hup
      obtain ⟨u, hacc, rfl⟩ := (MonModule.ends_iff (readout h).mon m).mp (by simpa using hup)
      have hge := MonModule.dataClock_ge s.readout.mon
        (fun n => Readout.monIn (readoutRun s inp n)) u
      have hu : tick s inp u = true := (MonModule.atRest_of_accepted (readout h).mon hacc 0).2.1
      exact hprev ⟨u, by omega, hu⟩
    have hout : ∀ k, k ≤ t + 1690 → ((run Readout.step s.readout (readoutRun s inp) k).mon.gainoff
        ps).out = (s.readout.mon.gainoff ps).out := by
      intro k hk
      rw [Readout.mon_run, MonModule.gainoff_run]
      exact Adc.out_before (MonModule.pulsed (readout h).mon ps) (h.mon ps) h.steady.reset
        fun m hm => hnone m (by omega)
    rw [hout n hn', hout t (by omega)]

/-! ## One sample for each tick -/

/-- What an average of a supply is given, with the data `x`. -/
def aveRun (s : State) (inp : ℕ → Input) (ps : Ps) (x : ℕ → BitVec 20) (n : ℕ) : Average.Input :=
  ⟨(inp n).reset, Readout.adcDone (run step s inp n).readout, x n, (inp n).aveMode ps⟩

theorem starts_iff (h : Powered d r mode s inp) (ps : Ps) (x : ℕ → BitVec 20) (n : ℕ) :
    Average.starts (aveRun s inp ps x) 0 n = true ↔
      ∃ t v, tick s inp t = true ∧ Delivers r s inp t v ∧ n = v + 10 := by
  rw [Average.starts, Bool.and_eq_true, decide_eq_true_eq]
  constructor
  · rintro ⟨hn, hstart⟩
    exact (adcDone_iff h hn).mp hstart
  · rintro ⟨t, v, ht, hd, rfl⟩
    exact ⟨by omega, (adcDone_iff h (by omega)).mpr ⟨t, v, ht, hd, rfl⟩⟩

theorem tick_of_starts (h : Powered d r mode s inp) {ps : Ps} {x : ℕ → BitVec 20} {u : ℕ}
    (hu : Average.starts (aveRun s inp ps x) 0 u = true) : ∃ t v, tick s inp t = true ∧
      Delivers r s inp t v ∧ u = v + 10 ∧ t + 310 < u ∧ u ≤ t + 736 := by
  obtain ⟨t, v, ht, hd, rfl⟩ := (starts_iff h ps x u).mp hu
  have := hd.bounds
  exact ⟨t, v, ht, hd, rfl, by omega, by omega⟩

/-- The data of a start stay for the two clocks that the average needs. -/
structure Stays (r : Bool) (s : State) (inp : ℕ → Input) (x : ℕ → BitVec 20) (y : ℕ → ℤ) :
    Prop where
  eq : ∀ t v, tick s inp t = true → Delivers r s inp t v → (x (v + 10)).toInt = y t
  held : ∀ t v, tick s inp t = true → Delivers r s inp t v → ∀ k ≤ 2,
    x (v + 10 + k) = x (v + 10)

theorem constantMode (h : Powered d r mode s inp) (ps : Ps) {x : ℕ → BitVec 20} {y : ℕ → ℤ}
    (hx : Stays r s inp x y) : Average.ConstantMode (mode ps) (aveRun s inp ps x) 0 where
  sel n := h.mode n ps
  reset := h.steady.reset
  running := h.steady.low
  apart u u' hu hu' huu' := by
    obtain ⟨t, v, ht, hd, rfl, hlow, hhigh⟩ := tick_of_starts h hu
    obtain ⟨t', v', ht', hd', rfl, hlow', hhigh'⟩ := tick_of_starts h hu'
    have hlimit := Average.limit_le (mode ps)
    by_contra hnear
    obtain rfl := (spaced h).eq_of_near ht ht' (by omega) (by omega)
    have := DcctModule.Delivers.unique (readout h).dcct (pos_of_tick h ht) ht hd hd'
    omega
  held u hu k hk := by
    obtain ⟨t, v, ht, hd, rfl, -, -⟩ := tick_of_starts h hu
    exact hx.held t v ht hd k hk

theorem start_unique (h : Powered d r mode s inp) {ps : Ps} {x : ℕ → BitVec 20}
    (ht : tick s inp t = true) (hd : Delivers r s inp t v) (hn : t ≤ n) (hn' : n < t + 1300)
    (hstart : Average.starts (aveRun s inp ps x) 0 n = true) : n = v + 10 := by
  obtain ⟨t', v', ht', hd', rfl, hlow, hhigh⟩ := tick_of_starts h hstart
  obtain rfl := (spaced h).eq_of_near ht ht' (by omega) (by omega)
  rw [DcctModule.Delivers.unique (readout h).dcct (pos_of_tick h ht) ht hd hd']

/-- The samples are those of the ticks. -/
theorem inputs_eq (h : Powered d r mode s inp) (ps : Ps) {x : ℕ → BitVec 20} {y : ℕ → ℤ}
    (hx : Stays r s inp x y) (ht : tick s inp t = true) (hd : Delivers r s inp t v) :
    Average.inputs (aveRun s inp ps x) 0 (v + 10 + 1) = (ticks (tick s inp) (t + 1)).map y := by
  have hbounds := hd.bounds
  have hspaced : Spaced (tick s inp) 1300 := (spaced h).mono (by omega)
  -- both lists are those of 1300 clocks after the tick
  have hstarts : ticks (Average.starts (aveRun s inp ps x) 0) (t + 1300) =
      ticks (Average.starts (aveRun s inp ps x) 0) (v + 10 + 1) := by
    refine ticks_eq_of_none (by omega) fun m hvm hmt => ?_
    by_contra hm
    have := start_unique h ht hd (by omega) hmt (by simpa using hm)
    omega
  have hticks : ticks (tick s inp) (t + 1300) = ticks (tick s inp) (t + 1) := by
    refine ticks_eq_of_none (by omega) fun m htm hmt => ?_
    by_contra hm
    have := spaced h t m htm ht (by simpa using hm)
    omega
  unfold Average.inputs
  rw [← hstarts, ← hticks]
  refine map_ticks_of_paired hspaced (by omega) ?_ ?_ (hspaced.rested_add ht)
  · intro n hn _
    by_contra hup
    obtain ⟨u, v', hu, -, -, hlow, hhigh⟩ := tick_of_starts h (by simpa using hup)
    have := hn u (by omega) hu
    omega
  · intro u hu
    obtain ⟨v', hd'⟩ := exists_delivers h hu
    have hbounds' := hd'.bounds
    exact ⟨v' + 10, by omega, by omega, (starts_iff h ps x _).mpr ⟨u, v', hu, hd', rfl⟩,
      hx.eq u v' hu hd', fun m hum hmu hm => start_unique h hu hd' hum hmu hm⟩

theorem average_of_tick (h : Powered d r mode s inp) (ps : Ps) {x : ℕ → BitVec 20} {y : ℕ → ℤ}
    (hx : Stays r s inp x y) (ht : tick s inp t = true) (hd : Delivers r s inp t v) :
    (Average.regs (aveRun s inp ps x) (v + 10 + Average.span (mode ps))).done = true ∧
      (Average.regs (aveRun s inp ps x) (v + 10 + Average.span (mode ps))).avgOut.toInt =
        Average.combined (mode ps) ((ticks (tick s inp) (t + 1)).map y) := by
  have hstart := (starts_iff h ps x (v + 10)).mpr ⟨t, v, ht, hd, rfl⟩
  obtain ⟨hdone, hout⟩ := Average.out_of_start (constantMode h ps hx) hstart
  rw [inputs_eq h ps hx ht hd] at hout
  exact ⟨hdone, hout⟩

/-- The reading of a DCCT of the conversion of a tick, as it stands 800 clocks later. -/
def dcctOf (s : State) (inp : ℕ → Input) (ps : Ps) (c : Adc.DcctInput) (t : ℕ) : ℤ :=
  (((run step s inp (t + 800)).readout.dcct.gainoff ps).out c).toInt

/-- The reading of a monitor at a tick, of the conversion before. -/
def monAt (s : State) (inp : ℕ → Input) (ps : Ps) (c : Adc.MonInput) (t : ℕ) : ℤ :=
  (((run step s inp t).readout.mon.gainoff ps).out c).toInt

theorem stays_dcct (h : Powered d r mode s inp) (ps : Ps) (c : Adc.DcctInput) :
    Stays r s inp (fun n => ((run step s inp n).readout.dcct.gainoff ps).out c)
      (dcctOf s inp ps c) where
  eq t v ht hd := by
    have := hd.bounds
    unfold dcctOf
    rw [dcct_stays h ht hd (by omega) (by omega) ps, dcct_stays h ht hd (by omega) (by omega) ps]
  held t v ht hd k hk := by
    have := hd.bounds
    rw [dcct_stays h ht hd (by omega) (by omega) ps, dcct_stays h ht hd (by omega) (by omega) ps]

theorem stays_mon (h : Powered d r mode s inp) (ps : Ps) (c : Adc.MonInput) :
    Stays r s inp (fun n => (((run step s inp n).readout.mon.gainoff ps).out c).signExtend 20)
      (monAt s inp ps c) where
  eq t v ht hd := by
    have := hd.bounds
    unfold monAt
    rw [BitVec.toInt_signExtend_of_le (by norm_num), mon_stays h ht (by omega) (by omega) ps]
  held t v ht hd k hk := by
    have := hd.bounds
    have hlast := mon_stays (n := v + 10 + k) h ht (by omega) (by omega) ps
    rw [hlast, mon_stays (n := v + 10) h ht (by omega) (by omega) ps]

end Run

/-- **The averages.** In every run from configuration with a step of the oscillator that leaves the
conversions their time, whatever is resynchronised, and with one mode for each supply: after each
tick all eight averages of a supply are done at one clock, and what they show is combined from one
sample for each tick so far. That of a DCCT is of the conversion that the tick has started, that of
a monitor is the reading at the tick, of the conversion that the tick before has started. -/
theorem averages_of_ticks {d : ℕ} {r : Bool} {mode : Ps → BitVec 2} {s : State} {inp : ℕ → Input}
    (h : Powered d r mode s inp) {t : ℕ} (ht : tick s inp t = true) (ps : Ps) :
    (∃ n, t < n ∧ n < t + 1300 ∧
      (∀ c, (((run step s inp n).accum ps).dcct c).done = true ∧
        (((run step s inp n).accum ps).dcct c).avgOut.toInt =
          Average.combined (mode ps) ((ticks (tick s inp) (t + 1)).map (dcctOf s inp ps c))) ∧
      ∀ c, (((run step s inp n).accum ps).mon c).done = true ∧
        (((run step s inp n).accum ps).mon c).avgOut.toInt =
          Average.combined (mode ps) ((ticks (tick s inp) (t + 1)).map (monAt s inp ps c))) ∧
    (∃ v, Delivers r s inp t v ∧ ∀ c, dcctOf s inp ps c t = (DcctModule.readings s.readout.dcct
      (fun n => Readout.dcctIn (readoutRun s inp n)) v ps c).toInt) ∧
    ∀ u, Readout.Ticks (readoutRun s inp) u t → ∀ c, monAt s inp ps c t =
      (MonModule.readings s.readout.mon (fun n => Readout.monIn (readoutRun s inp n)) u ps
        c).toInt := by
  obtain ⟨v, hd⟩ := exists_delivers h ht
  have hbounds := hd.bounds
  have hspan := Average.span_le (mode ps)
  refine ⟨⟨v + 10 + Average.span (mode ps), by omega, by omega, fun c => ?_, fun c => ?_⟩,
    ⟨v, hd, fun c => ?_⟩, fun u hu c => ?_⟩
  · rw [accum_run h, Accumulator.run_dcct]
    exact average_of_tick h ps (stays_dcct h ps c) ht hd
  · rw [accum_run h, Accumulator.run_mon]
    exact average_of_tick h ps (stays_mon h ps c) ht hd
  · unfold dcctOf
    rw [dcct_stays h ht hd (by omega) (by omega) ps]
  · unfold monAt
    rw [readout_run, Readout.mon_at (readout h) hu le_rfl (by omega) ps]

/-- The registers at configuration. -/
def restState : State :=
  ⟨TenkhzGen.restState, Readout.restState, fun _ => Accumulator.powerOn⟩

/-- A reset, and then the step of `main`, with averages over ten samples. -/
def freeRun (n : ℕ) : Input :=
  ⟨n == 0, Nco.stepSize10kHz, false, true, fun _ => true, fun _ _ => ⟨0, 1⟩, fun _ => 3, true,
    fun _ => false, fun _ _ => ⟨0, 1⟩, true, true, true⟩

theorem powered_freeRun : Powered 427853 true (fun _ => 3) restState freeRun where
  steady := TenkhzGen.steady_freeRun
  slow := by norm_num
  first := rfl
  held _ _ := rfl
  mode _ _ := rfl
  dcct := ⟨rfl, rfl⟩
  mon _ := ⟨rfl, rfl⟩
  accum _ := rfl

/-- After the first tick an average of the second supply is done. -/
theorem first_tick_averaged : ∃ n, 5023 < n ∧ n < 6323 ∧
    (((run step restState freeRun n).accum .ps2).dcct .dcct1).done = true := by
  have htick : tick restState freeRun 5023 = true := by
    rw [tick_eq]
    exact (TenkhzGen.tick_freeRun (by omega) (by omega)).mpr (Or.inl rfl)
  obtain ⟨⟨n, hlt, hle, hdcct, -⟩, -⟩ := averages_of_ticks powered_freeRun htick .ps2
  exact ⟨n, hlt, hle, (hdcct .dcct1).1⟩

end Psc.Averages
