import Psc.Records
import Psc.Adc.Ads8568
import Psc.Adc.Calibrator

/-!
# The monitor converters and their calibration

`adc_8ch_module.vhd`: three converter interfaces of eight channels each, a register that sorts the
24 samples by supply and quantity, and a calibrator behind it for each supply. Only the first
interface drives the converters and announces the data.

1. `fourChannel_eq`, `fourSource_bijective`: with four supplies every channel is used once.
2. `sameControl_run`: after a reset the interfaces go in step, so the clock of the first takes the
   bits of all three.
3. `convDone_iff`: `conv_done` comes up at the end of each conversion, for one clock.
4. `monitors_calibrated`: every conversion is followed by one calibration of its samples.
-/

namespace Psc.MonModule

open Clocked Spi Ads8568

/-- The input ports. `sdo k` is the data line of converter `k`. -/
structure Input where
  reset : Bool
  start : Bool
  numchanSel : Bool
  monParams : Ps → Adc.MonInput → Adc.Params 16
  sdo : Fin 3 → Bool

/-- The registers of the entities. -/
structure State where
  adc : Fin 3 → Ads8568.State
  monAdcsIn : Ps → Adc.MonInput → BitVec 16
  gainoff : Ps → Adc.State Adc.MonInput 16

/-! ## The mapping -/

/-- The 4 channel mapping. -/
def fourChannel (x : Fin 3 → BitVec 128) : Ps → Adc.MonInput → BitVec 16
  | .ps1, .dacmon => (x 0).extractLsb 127 112
  | .ps3, .dacmon => (x 0).extractLsb 111 96
  | .ps2, .dacmon => (x 0).extractLsb 95 80
  | .ps4, .dacmon => (x 0).extractLsb 79 64
  | .ps1, .voltage => (x 0).extractLsb 63 48
  | .ps1, .spare => (x 0).extractLsb 47 32
  | .ps1, .ignd => (x 0).extractLsb 31 16
  | .ps2, .voltage => (x 0).extractLsb 15 0
  | .ps2, .ignd => (x 1).extractLsb 127 112
  | .ps3, .voltage => (x 1).extractLsb 111 96
  | .ps2, .spare => (x 1).extractLsb 95 80
  | .ps3, .ignd => (x 1).extractLsb 79 64
  | .ps3, .spare => (x 1).extractLsb 63 48
  | .ps4, .ignd => (x 1).extractLsb 47 32
  | .ps4, .voltage => (x 1).extractLsb 31 16
  | .ps4, .spare => (x 1).extractLsb 15 0
  | .ps1, .psReg => (x 2).extractLsb 127 112
  | .ps2, .psReg => (x 2).extractLsb 111 96
  | .ps1, .psError => (x 2).extractLsb 95 80
  | .ps2, .psError => (x 2).extractLsb 79 64
  | .ps3, .psReg => (x 2).extractLsb 63 48
  | .ps4, .psReg => (x 2).extractLsb 47 32
  | .ps3, .psError => (x 2).extractLsb 31 16
  | .ps4, .psError => (x 2).extractLsb 15 0

/-- The 2 channel mapping. -/
def twoChannel (x : Fin 3 → BitVec 128) : Ps → Adc.MonInput → BitVec 16
  | .ps1, .dacmon => (x 0).extractLsb 127 112
  | .ps1, .voltage => (x 0).extractLsb 111 96
  | .ps2, .dacmon => (x 0).extractLsb 95 80
  | .ps1, .ignd => (x 0).extractLsb 79 64
  | .ps1, .spare => (x 0).extractLsb 63 48
  | .ps2, .voltage => (x 0).extractLsb 47 32
  | .ps2, .ignd => (x 1).extractLsb 127 112
  | .ps1, .psReg => (x 1).extractLsb 111 96
  | .ps2, .spare => (x 1).extractLsb 95 80
  | .ps1, .psError => (x 1).extractLsb 79 64
  | .ps2, .psReg => (x 1).extractLsb 63 48
  | .ps2, .psError => (x 1).extractLsb 47 32
  | .ps3, _ => 0
  | .ps4, _ => 0

/-- The samples of the supplies. -/
def mapping (numchanSel : Bool) (x : Fin 3 → BitVec 128) : Ps → Adc.MonInput → BitVec 16 :=
  if numchanSel then fourChannel x else twoChannel x

/-! ## The entities -/

/-- The ports of a converter interface. -/
def adcIn (i : Input) (k : Fin 3) : Ads8568.Input := ⟨i.reset, i.start, i.sdo k⟩

/-- `conv_done`. -/
def convDone (s : State) : Bool := (s.adc 0).dataRdy

/-- The ports of a calibrator. -/
def gainIn (s : State) (i : Input) (ps : Ps) : Adc.Input Adc.MonInput 16 :=
  ⟨i.reset, convDone s, s.monAdcsIn ps, i.monParams ps⟩

/-- One clock. -/
def step (s : State) (i : Input) : State where
  adc k := Ads8568.step monitor (s.adc k) (adcIn i k)
  monAdcsIn := mapping i.numchanSel fun k => (s.adc k).dataOut
  gainoff ps := Adc.monGainoffset (s.gainoff ps) (gainIn s i ps)

/-! ## The channels of a converter -/

/-- The samples of a converter in the order in which they come. -/
def channel (x : BitVec 128) (j : Fin 8) : BitVec 16 := x.extractLsb' (16 * (7 - j.val)) 16

/-- The converter and its channel of each quantity, with four supplies. -/
def fourSource : Ps × Adc.MonInput → Fin 3 × Fin 8
  | (.ps1, .dacmon) => (0, 0)
  | (.ps3, .dacmon) => (0, 1)
  | (.ps2, .dacmon) => (0, 2)
  | (.ps4, .dacmon) => (0, 3)
  | (.ps1, .voltage) => (0, 4)
  | (.ps1, .spare) => (0, 5)
  | (.ps1, .ignd) => (0, 6)
  | (.ps2, .voltage) => (0, 7)
  | (.ps2, .ignd) => (1, 0)
  | (.ps3, .voltage) => (1, 1)
  | (.ps2, .spare) => (1, 2)
  | (.ps3, .ignd) => (1, 3)
  | (.ps3, .spare) => (1, 4)
  | (.ps4, .ignd) => (1, 5)
  | (.ps4, .voltage) => (1, 6)
  | (.ps4, .spare) => (1, 7)
  | (.ps1, .psReg) => (2, 0)
  | (.ps2, .psReg) => (2, 1)
  | (.ps1, .psError) => (2, 2)
  | (.ps2, .psError) => (2, 3)
  | (.ps3, .psReg) => (2, 4)
  | (.ps4, .psReg) => (2, 5)
  | (.ps3, .psError) => (2, 6)
  | (.ps4, .psError) => (2, 7)

theorem fourChannel_eq (x : Fin 3 → BitVec 128) (ps : Ps) (c : Adc.MonInput) :
    fourChannel x ps c = channel (x (fourSource (ps, c)).1) (fourSource (ps, c)).2 := by
  cases ps <;> cases c <;> rfl

instance : Fintype Ps := ⟨{.ps1, .ps2, .ps3, .ps4}, fun ps => by cases ps <;> decide⟩

instance : Fintype Adc.MonInput :=
  ⟨{.dacmon, .voltage, .ignd, .spare, .psReg, .psError}, fun c => by cases c <;> decide⟩

/-- Every channel is read into one quantity of one supply. -/
theorem fourSource_bijective : Function.Bijective fourSource := by
  rw [Fintype.bijective_iff_injective_and_card]
  exact ⟨by decide, rfl⟩

theorem wordBits_channel (x : BitVec 128) (j : Fin 8) :
    wordBits (channel x j) = ((wordBits x).drop (16 * j.val)).take 16 := by
  refine List.ext_getElem (by simp [wordBits]; omega) fun n hn hn' => ?_
  have hn16 : n < 16 := by simpa using hn
  simp only [wordBits, topBits, List.getElem_map, List.getElem_range, List.getElem_take,
    List.getElem_drop]
  rw [BitVec.getMsbD_eq_getLsbD, BitVec.getMsbD_eq_getLsbD, channel, BitVec.getLsbD_extractLsb',
    decide_eq_true hn16, decide_eq_true (show 16 * j.val + n < 128 by omega),
    decide_eq_true (show 16 - 1 - n < 16 by omega), Bool.true_and, Bool.true_and, Bool.true_and]
  exact congrArg x.getLsbD (by omega)

/-! ## The interfaces go in step -/

/-- An interface without its data. -/
def control (a : Ads8568.State) : Ads8568.State := { a with shiftReg := 0, dataOut := 0 }

theorem control_step (a : Ads8568.State) (i : Input) (k k' : Fin 3) :
    control (Ads8568.step monitor a (adcIn i k)) =
      control (Ads8568.step monitor (control a) (adcIn i k')) := by
  unfold Ads8568.step
  cases hr : (adcIn i k).reset with
  | true =>
    rw [show (adcIn i k').reset = true from hr]
    rfl
  | false =>
    rw [show (adcIn i k').reset = false from hr]
    simp only [Bool.false_eq_true, if_false]
    cases hs : a.presentState with
    | idle =>
      simp only [control, hs]
      rfl
    | done => simp only [control, hs]
    | _ =>
      simp only [control, hs]
      split_ifs <;> rfl

/-- A run from a reset in clock 0. -/
structure FromReset (inp : ℕ → Input) : Prop where
  reset : (inp 0).reset = true
  low : ∀ n, 0 < n → (inp n).reset = false

/-- The starts that the interfaces take. -/
def accepted (s : State) (inp : ℕ → Input) : ℕ → Bool :=
  accepts monitor (s.adc 0) fun n => adcIn (inp n) 0

/-- The clock in which `conv_done` comes up after a start in clock `t`. -/
def dataClock (s : State) (inp : ℕ → Input) (t : ℕ) : ℕ :=
  t + conversionClocks monitor (cnvPulse - leftOver (tickCount (accepted s inp) t))

/-- `ADC8C_SCK123` falls at the end of the clock. -/
def sckFalls (s : State) (inp : ℕ → Input) (n : ℕ) : Bool :=
  falls ((run step s inp n).adc 0) ((run step s inp (n + 1)).adc 0)

/-- The bits on the line of converter `k` at the falling edges of the clock from clock `t` on,
before clock `n`. -/
def taken (s : State) (inp : ℕ → Input) (k : Fin 3) (t n : ℕ) : List Bool :=
  record (sckFalls s inp) (fun m => (inp m).sdo k) t n

section Run

variable {s : State} {inp : ℕ → Input} {t n : ℕ}

theorem FromReset.adc (h : FromReset inp) (k : Fin 3) (u : ℕ) :
    Ads8568.FromReset (fun n => adcIn (inp n) k) u :=
  ⟨h.reset, fun n hn _ => h.low n hn⟩

theorem adc_run (s : State) (inp : ℕ → Input) (k : Fin 3) (n : ℕ) : (run step s inp n).adc k =
    run (Ads8568.step monitor) (s.adc k) (fun n => adcIn (inp n) k) n :=
  run_map step s inp (fun s => s.adc k) (fun _ i => adcIn i k) (fun _ _ => rfl) n

/-- **In step.** From the first clock in IDLE on the interfaces differ in their data only. -/
theorem sameControl_run (h : FromReset inp) (k k' : Fin 3) (hn : 2 ≤ n) :
    control ((run step s inp n).adc k) = control ((run step s inp n).adc k') := by
  induction n, hn using Nat.le_induction with
  | base =>
    have h1 : ∀ k, (run step s inp 2).adc k = Ads8568.step monitor
        (Ads8568.step monitor (s.adc k) (adcIn (inp 0) k)) (adcIn (inp 1) k) := fun _ => rfl
    have hreset : ∀ k, (adcIn (inp 0) k).reset = true := fun _ => h.reset
    have hlow : ∀ k, (adcIn (inp 1) k).reset = false := fun _ => h.low 1 Nat.one_pos
    have hstart : ∀ k, (adcIn (inp 1) k).start = (inp 1).start := fun _ => rfl
    rw [h1, h1]
    simp [control, Ads8568.step, hreset, hlow, hstart]
  | succ n hn ih =>
    change control (Ads8568.step monitor ((run step s inp n).adc k) (adcIn (inp n) k)) =
      control (Ads8568.step monitor ((run step s inp n).adc k') (adcIn (inp n) k'))
    rw [control_step _ _ k k, ih, ← control_step]

/-! ## Conversions -/

/-- A start is taken at rest, by all interfaces. -/
theorem atRest_of_accepted (h : FromReset inp) (ht : accepted s inp t = true) (k : Fin 3) :
    0 < t ∧ (inp t).start = true ∧
      AtRest (leftOver (tickCount (accepted s inp) t)) ((run step s inp t).adc k) := by
  obtain ⟨hpos, hrest⟩ := atRest_of_accepts (h.adc 0 t) le_rfl ht
  have hstart := ((accepts_iff (h.low t hpos)).mp ht).2
  refine ⟨hpos, hstart, ?_⟩
  change AtRest (leftOver (tickCount (accepted s inp) t)) _ at hrest
  rw [← adc_run] at hrest
  rcases Nat.lt_or_ge t 2 with hlt | hge
  · -- the first clock after the reset
    obtain rfl : t = 1 := by omega
    have hk : ∀ k, AtRest 0 ((run step s inp 1).adc k) := fun k =>
      step_reset (s.adc k) (i := adcIn (inp 0) k) h.reset
    rw [← hrest.cnvCount, (hk 0).cnvCount]
    exact hk k
  · have hsame := @sameControl_run s inp t h k 0 hge
    exact ⟨(congrArg Ads8568.State.presentState hsame).trans hrest.idle,
      (congrArg Ads8568.State.cnvCount hsame).trans hrest.cnvCount,
      (congrArg Ads8568.State.clkCount hsame).trans hrest.clkCount,
      (congrArg Ads8568.State.bitCount hsame).trans hrest.bitCount,
      (congrArg Ads8568.State.cnv hsame).trans hrest.cnv⟩

theorem converts_of_accepted (h : FromReset inp) (ht : accepted s inp t = true) (k : Fin 3) :
    Converts monitor (s.adc k) (fun n => adcIn (inp n) k) t
        (cnvPulse - leftOver (tickCount (accepted s inp) t)) (dataClock s inp t) ∧
      AtRest waitMsb ((run step s inp (dataClock s inp t)).adc k) := by
  obtain ⟨hpos, hstart, hrest⟩ := atRest_of_accepted h ht k
  rw [adc_run] at hrest ⊢
  exact conversion (leftOver_le _) hrest hstart fun n hn _ => h.low n (by omega)

theorem sckFalls_eq (h : FromReset inp) (ht : accepted s inp t = true) (k : Fin 3) {m : ℕ}
    (hm : t ≤ m) : sckFalls s inp m = sclkFalls monitor (s.adc k) (fun n => adcIn (inp n) k) m := by
  obtain ⟨hpos, -, hrest⟩ := atRest_of_accepted h ht k
  have hsame : ∀ m, 2 ≤ m → ((run step s inp m).adc 0).sclk = ((run step s inp m).adc k).sclk :=
    fun m hm => (congrArg Ads8568.State.sclk (@sameControl_run s inp m h 0 k hm) :)
  unfold sckFalls sclkFalls falls
  rw [← adc_run, ← adc_run, hsame (m + 1) (by omega)]
  rcases Nat.lt_or_ge m 2 with hlt | hge
  · -- with the start `sclk` goes up
    obtain rfl : m = t := by omega
    have hup : ((run step s inp (m + 1)).adc k).sclk = true := by
      change (Ads8568.step monitor ((run step s inp m).adc k) (adcIn (inp m) k)).sclk = true
      have hr : (adcIn (inp m) k).reset = false := h.low m hpos
      simp [Ads8568.step, hr, hrest.idle]
    simp [hup]
  · rw [hsame m hge]

theorem wordBits_dataOut (h : FromReset inp) (ht : accepted s inp t = true) (k : Fin 3) :
    wordBits ((run step s inp (dataClock s inp t)).adc k).dataOut =
      taken s inp k t (dataClock s inp t) := by
  rw [adc_run, (converts_of_accepted h ht k).1.dataOut]
  exact record_congr (fun m hm _ => (sckFalls_eq h ht k hm).symm) fun _ _ _ => rfl

/-! ## The end of a conversion -/

theorem dataClock_ge (s : State) (inp : ℕ → Input) (t : ℕ) : t + 1688 ≤ dataClock s inp t := by
  have hafter : afterPulse monitor = 1680 := rfl
  have hleft : leftOver (tickCount (accepted s inp) t) ≤ 6 := by
    unfold leftOver
    split_ifs <;> decide
  unfold dataClock conversionClocks
  rw [hafter, show cnvPulse = 12 from rfl]
  omega

theorem dataClock_le_add (s : State) (inp : ℕ → Input) (t : ℕ) : dataClock s inp t ≤ t + 1694 := by
  have hafter : afterPulse monitor = 1680 := rfl
  unfold dataClock conversionClocks
  rw [hafter, show cnvPulse = 12 from rfl]
  omega

theorem accepted_of_start (h : FromReset inp) (hn : 0 < n) (hstart : (inp n).start = true)
    (hbefore : ∀ t < n, 0 < t → (inp t).start = true → t + 1694 ≤ n) :
    accepted s inp n = true := by
  refine (accepts_iff (h.low n hn)).mpr ⟨?_, hstart⟩
  rcases @atRest_or_converting monitor (s.adc 0) _ n (h.adc 0 n) n hn le_rfl with
    hrest | ⟨t, hpos, htn, ht, hlt, -⟩
  · exact hrest.idle
  · have hle := hbefore t htn hpos (atRest_of_accepted h ht 0).2.1
    have := dataClock_le_add s inp t
    change n < dataClock s inp t at hlt
    omega

theorem dataClock_le (h : FromReset inp) (ht : accepted s inp t = true) {t' : ℕ}
    (ht' : accepted s inp t' = true) (htt' : t < t') : dataClock s inp t ≤ t' := by
  by_contra hlt
  obtain ⟨hpos, hstart, hrest⟩ := atRest_of_accepted h ht 0
  rw [adc_run] at hrest
  have hbusy := not_idle_of_converting (u := t') (leftOver_le _) hrest hstart
    (fun n hn _ => h.low n (by omega)) htt' (by unfold dataClock at hlt; omega) le_rfl
  have hidle := (atRest_of_accepted h ht' 0).2.2.idle
  rw [adc_run] at hidle
  exact hbusy hidle

/-- **The data.** `conv_done` comes up with the data of each conversion, for one clock, and at no
other time. -/
theorem convDone_iff (h : FromReset inp) (hn : 0 < n) :
    convDone (run step s inp n) = true ↔ ∃ t, accepted s inp t = true ∧ n = dataClock s inp t := by
  obtain ⟨m, rfl⟩ : ∃ m, n = m + 1 := ⟨n - 1, by omega⟩
  -- two conversions do not go on at once
  have hunique : ∀ t t', accepted s inp t = true → accepted s inp t' = true → t < m →
      m < dataClock s inp t → t' ≤ m → m < dataClock s inp t' → t = t' := by
    intro t t' ht ht' htm hmt ht'm hmt'
    rcases Nat.lt_trichotomy t t' with hlt | heq | hgt
    · have := dataClock_le h ht ht' hlt
      omega
    · exact heq
    · have := dataClock_le h ht' ht hgt
      omega
  rcases Nat.eq_zero_or_pos m with rfl | hm
  · refine iff_of_false ?_ ?_
    · have hreset : (adcIn (inp 0) 0).reset = true := h.reset
      change (Ads8568.step monitor (s.adc 0) (adcIn (inp 0) 0)).dataRdy ≠ true
      rw [Ads8568.step, if_pos hreset]
      simp
    · rintro ⟨t, -, ht⟩
      have := dataClock_ge s inp t
      omega
  · rcases @atRest_or_converting monitor (s.adc 0) _ m (h.adc 0 m) m hm le_rfl with
      hrest | ⟨t, -, htm, ht, hlt, -⟩
    · rw [← adc_run] at hrest
      have hr : (adcIn (inp m) 0).reset = false := h.low m hm
      refine iff_of_false ?_ ?_
      · change (Ads8568.step monitor ((run step s inp m).adc 0) (adcIn (inp m) 0)).dataRdy ≠ true
        simp [Ads8568.step, hr, hrest.idle]
      · rintro ⟨t, ht, hmt⟩
        obtain ⟨-, hstart, hrest'⟩ := atRest_of_accepted h ht 0
        rw [adc_run] at hrest hrest'
        have hge := dataClock_ge s inp t
        have hpos := (atRest_of_accepted h ht 0).1
        exact not_idle_of_converting (u := m) (leftOver_le _) hrest' hstart
          (fun n hn _ => h.low n (by omega)) (by omega) (by unfold dataClock at hmt; omega) le_rfl
          hrest.idle
    · have hrdy := (converts_of_accepted h ht 0).1.dataRdy (m + 1) (by omega) hlt
      rw [← adc_run] at hrdy
      refine hrdy.trans ⟨fun heq => ⟨t, ht, heq⟩, ?_⟩
      rintro ⟨t', ht', heq⟩
      have hge := dataClock_ge s inp t'
      rwa [hunique t t' ht ht' htm hlt (by omega) (by omega)]

/-- A calibrator runs on the ports that the module gives it. -/
def gainRun (s : State) (inp : ℕ → Input) (ps : Ps) (n : ℕ) : Adc.Input Adc.MonInput 16 :=
  gainIn (run step s inp n) (inp n) ps

theorem gainoff_run (s : State) (inp : ℕ → Input) (ps : Ps) (n : ℕ) :
    (run step s inp n).gainoff ps = run Adc.step (s.gainoff ps) (gainRun s inp ps) n :=
  run_map step s inp (fun s => s.gainoff ps) (fun s i => gainIn s i ps) (fun _ _ => rfl) n

/-- The clocks at which the data of a conversion are there. -/
def ends (s : State) (inp : ℕ → Input) (n : ℕ) : Bool :=
  convDone (run step s inp n) && !(inp n).reset

theorem ends_iff (h : FromReset inp) (n : ℕ) :
    ends s inp n = true ↔ ∃ t, accepted s inp t = true ∧ n = dataClock s inp t := by
  rcases Nat.eq_zero_or_pos n with rfl | hn
  · refine iff_of_false ?_ ?_
    · simp [ends, h.reset]
    · rintro ⟨t, -, ht⟩
      have := dataClock_ge s inp t
      omega
  · rw [← convDone_iff h hn]
    simp [ends, h.low n hn]

theorem pulsed (h : FromReset inp) (ps : Ps) : Adc.Pulsed (gainRun s inp ps) (ends s inp) where
  low n hn := h.low n hn
  late n hn := by
    obtain ⟨t, -, rfl⟩ := (ends_iff h n).mp hn
    have := dataClock_ge s inp t
    omega
  spaced n n' hnn' hn hn' := by
    obtain ⟨t, ht, rfl⟩ := (ends_iff h n).mp hn
    obtain ⟨t', ht', rfl⟩ := (ends_iff h n').mp hn'
    have hge := dataClock_ge s inp t'
    rcases Nat.lt_trichotomy t t' with hlt | rfl | hgt
    · have := dataClock_le h ht ht' hlt
      omega
    · omega
    · have := dataClock_le h ht' ht hgt
      have := dataClock_ge s inp t
      omega
  up n hn := ((Bool.and_eq_true _ _).mp hn).1
  down n hn hup := by
    refine ⟨n, ?_, le_rfl, by omega⟩
    rw [ends, h.low n hn, Bool.not_false, Bool.and_true]
    exact hup

/-- The readings of a supply after the conversion of a start in clock `t`. -/
def readings (s : State) (inp : ℕ → Input) (t : ℕ) (ps : Ps) (c : Adc.MonInput) : BitVec 16 :=
  Adc.fixedMul (mapping (inp (dataClock s inp t)).numchanSel
      (fun k => ((run step s inp (dataClock s inp t)).adc k).dataOut) ps c -
    ((inp (dataClock s inp t + 1)).monParams ps c).offset)
    ((inp (dataClock s inp t + 2)).monParams ps c).gain 4

theorem out_eq_readings (h : FromReset inp) (ht : accepted s inp t = true) (ps : Ps)
    (hn : dataClock s inp t + 3 ≤ n)
    (hnext : ∀ t', t < t' → accepted s inp t' = true → n ≤ dataClock s inp t' + 2) :
    ((run step s inp n).gainoff ps).out = readings s inp t ps := by
  rw [gainoff_run, Adc.out_of_start (pulsed h ps) ((ends_iff h _).mpr ⟨t, ht, rfl⟩) hn]
  · rfl
  · intro m htm hmn
    by_contra hup
    obtain ⟨t', ht', rfl⟩ := (ends_iff h m).mp (by simpa using hup)
    rcases Nat.lt_trichotomy t t' with hlt | rfl | hgt
    · have := hnext t' hlt ht'
      omega
    · omega
    · have := dataClock_le h ht' ht hgt
      have := dataClock_ge s inp t
      omega

end Run

theorem wordBits_mapping {data : Fin 3 → BitVec 128} {bits : Fin 3 → List Bool}
    (h : ∀ k, wordBits (data k) = bits k) (ps : Ps) (c : Adc.MonInput) :
    wordBits (mapping true data ps c) = ((bits (fourSource (ps, c)).1).drop
      (16 * (fourSource (ps, c)).2.val)).take 16 := by
  rw [mapping, if_pos rfl, fourChannel_eq, wordBits_channel, h]

/-- **The monitors.** In every run from a reset, but for what the reset has interrupted, `done` of
each calibrator comes up ten clocks after the data of each conversion, and at no other time. The
readings are then, and stay until the next conversion, those of the bits that the three converters
have sent on the clock of the first, sorted by supply and quantity and calibrated. With four
supplies each channel is that of one quantity, whose sample has its sixteen bits. -/
theorem monitors_calibrated (s : State) {inp : ℕ → Input} (h : FromReset inp) :
    Function.Bijective fourSource ∧
    (∀ ps n, 21 < n → (((run step s inp n).gainoff ps).done = true ↔
      ∃ t, accepted s inp t = true ∧ n = dataClock s inp t + 10)) ∧
    ∀ t, accepted s inp t = true → ∃ data : Fin 3 → BitVec 128,
      (∀ k, wordBits (data k) = taken s inp k t (dataClock s inp t)) ∧
      (∀ ps c, wordBits (mapping true data ps c) =
        ((taken s inp (fourSource (ps, c)).1 t (dataClock s inp t)).drop
          (16 * (fourSource (ps, c)).2.val)).take 16) ∧
      ∀ ps n, dataClock s inp t + 3 ≤ n →
        (∀ t', t < t' → accepted s inp t' = true → n ≤ dataClock s inp t' + 2) →
        ((run step s inp n).gainoff ps).out = fun c =>
          Adc.fixedMul (mapping (inp (dataClock s inp t)).numchanSel data ps c -
            ((inp (dataClock s inp t + 1)).monParams ps c).offset)
            ((inp (dataClock s inp t + 2)).monParams ps c).gain 4 := by
  refine ⟨fourSource_bijective, ?_, ?_⟩
  · intro ps n hn
    rw [gainoff_run, Adc.done_iff (pulsed h ps) hn]
    constructor
    · rintro ⟨v, hv, rfl⟩
      obtain ⟨t, ht, rfl⟩ := (ends_iff h v).mp hv
      exact ⟨t, ht, rfl⟩
    · rintro ⟨t, ht, rfl⟩
      exact ⟨_, (ends_iff h _).mpr ⟨t, ht, rfl⟩, rfl⟩
  · intro t ht
    have hbits := wordBits_dataOut h ht
    exact ⟨fun k => ((run step s inp (dataClock s inp t)).adc k).dataOut, hbits,
      wordBits_mapping hbits, fun ps n hn hnext => out_eq_readings h ht ps hn hnext⟩

/-- The registers at configuration. -/
def restState : State where
  adc _ := Ads8568.restState
  monAdcsIn _ _ := 0
  gainoff _ := Adc.restState Adc.MonInput 16

/-- A reset, and one start in clock 1, with the lines of the second converter high, gain 1 and an
offset of 5. -/
def oneStart (n : ℕ) : Input :=
  ⟨n == 0, n == 1, true, fun _ _ => ⟨5, 0x100000⟩, fun k => k == 1⟩

theorem fromReset_oneStart : FromReset oneStart := ⟨rfl, fun _ hn => beq_false_of_ne hn.ne'⟩

theorem accepted_oneStart {n : ℕ} (hn : 0 < n) : accepted restState oneStart n = true ↔ n = 1 := by
  constructor
  · intro h
    have hstart := (atRest_of_accepted fromReset_oneStart h 0).2.1
    simpa [oneStart] using hstart
  · rintro rfl
    rfl

theorem dataClock_oneStart : dataClock restState oneStart 1 = 1695 := by
  have hcount : tickCount (accepted restState oneStart) 1 = 0 :=
    tickCount_succ_of_not_tick (by simp [accepted, accepts, adcIn, oneStart])
  rw [dataClock, hcount]
  rfl

theorem eq_level_of_taken {k : Fin 3} {x : BitVec 128} {t n : ℕ}
    (h : wordBits x = taken restState oneStart k t n) : x = level 128 (k == 1) := by
  have hlen := congrArg List.length h
  rw [length_wordBits] at hlen
  rw [← wordBits_eq_replicate_iff, h, hlen]
  exact record_eq_replicate fun _ _ _ => rfl

/-- The calibration of the conversion is done in clock 1705, and the readings are those of the lines
less the offset: on the second converter -1 - 5 for the ground current of the second supply, on the
first -5 for the voltage of the first. -/
theorem one_start_done : ((run step restState oneStart 1705).gainoff .ps4).done = true ∧
    ((run step restState oneStart 1705).gainoff .ps2).out .ignd = -6 ∧
    ((run step restState oneStart 1705).gainoff .ps1).out .voltage = -5 := by
  obtain ⟨-, hdone, hout⟩ := monitors_calibrated restState fromReset_oneStart
  obtain ⟨data, hdata, -, hreadings⟩ := hout 1 rfl
  have hnext : ∀ t', 1 < t' → accepted restState oneStart t' = true →
      1705 ≤ dataClock restState oneStart t' + 2 := fun t' hlt ht' => by
    have := (accepted_oneStart (by omega)).mp ht'
    omega
  have hwords : data = fun k => level 128 (k == 1) := funext fun k => eq_level_of_taken (hdata k)
  rw [dataClock_oneStart, hwords] at hreadings
  refine ⟨(hdone .ps4 1705 (by omega)).mpr ⟨1, rfl, by rw [dataClock_oneStart]⟩, ?_, ?_⟩
  · rw [hreadings .ps2 1705 (by omega) hnext]
    decide
  · rw [hreadings .ps1 1705 (by omega) hnext]
    decide

end Psc.MonModule
