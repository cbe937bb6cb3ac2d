import Psc.Adc.DcctReadings
import Psc.Adc.MonModule
import Psc.Snapshot.Latency

/-!
# The readings of a tick

`top.vhd`: the DCCT converters, the monitor converters and the snapshot writer have one trigger, the
10 kHz tick. A conversion takes longer than a burst to the memory and less than a period.

1. `dcct_at`, `mon_at`: from one tick on, for three hundred clocks, all readings are those of the
tick before; this is what the fault detection sees at a tick. From the end of the DCCT conversion
on, the readings of the DCCTs are a tick newer than the monitors' (`dcct_after`).
2. `settled`, `over_within`: each tick begins a burst, which is over before the readings change.
3. `record_of_tick`: so a record has the readings of one tick, the one before its own.
-/

namespace Psc.Readout

open Clocked Snapshot

/-- The input ports of the three entities. -/
structure Input where
  reset : Bool
  tenkhzTrig : Bool
  numbitsSel : Bool
  dcctAdcSdo : Ps → Bool
  dcctParams : Ps → Adc.DcctInput → Adc.Params 20
  numchanSel : Bool
  monAdcSdo : Fin 3 → Bool
  monParams : Ps → Adc.MonInput → Adc.Params 16
  awready : Bool
  wready : Bool
  bvalid : Bool

/-- The registers of the three entities, and the memory. -/
structure State where
  dcct : DcctModule.State
  mon : MonModule.State
  snap : Sys

/-- `dcct_adcs`, from the outputs of the calibrators. -/
def dcctAdcs (out : Adc.DcctInput → BitVec 20) : DcctAdcs := ⟨out .dcct0, out .dcct1⟩

/-- `mon_adcs`. -/
def monAdcs (out : Adc.MonInput → BitVec 16) : MonAdcs :=
  ⟨out .dacmon, out .voltage, out .ignd, out .spare, out .psReg, out .psError⟩

/-- The ports of `read_dcct_adcs`. -/
def dcctIn (i : Input) : DcctModule.Input :=
  ⟨i.reset, i.tenkhzTrig, i.numbitsSel, i.dcctAdcSdo, i.dcctParams⟩

/-- The ports of `read_mon_adcs`. -/
def monIn (i : Input) : MonModule.Input :=
  ⟨i.reset, i.tenkhzTrig, i.numchanSel, i.monParams, i.monAdcSdo⟩

/-- The ports of `adc2ddr`. -/
def snapIn (s : State) (i : Input) : Snapshot.Input where
  reset := i.reset
  trigger := i.tenkhzTrig
  awready := i.awready
  wready := i.wready
  bvalid := i.bvalid
  dcctAdcs ps := dcctAdcs (s.dcct.gainoff ps).out
  monAdcs ps := monAdcs (s.mon.gainoff ps).out

/-- One clock. -/
def step (s : State) (i : Input) : State where
  dcct := DcctModule.step s.dcct (dcctIn i)
  mon := MonModule.step s.mon (monIn i)
  snap := sysStep s.snap (snapIn s i)

/-- `adc_done`. -/
def adcDone (s : State) : Bool := (s.dcct.gainoff .ps1).done

/-- A run from a reset in clock 0, at one resolution, with the ticks farther apart than a conversion
of the monitors and its calibration take. -/
structure Powered (r : Bool) (inp : ℕ → Input) : Prop where
  reset : (inp 0).reset = true
  low : ∀ n, 0 < n → (inp n).reset = false
  held : ∀ n, 0 < n → (inp n).numbitsSel = r
  spaced : ∀ m n, 0 < m → m < n → (inp m).tenkhzTrig = true → (inp n).tenkhzTrig = true →
    m + 1700 ≤ n

section Run

variable {r : Bool} {s : State} {inp : ℕ → Input} {t t' n : ℕ}

/-- Two ticks after the reset, with none between them. -/
structure Ticks (inp : ℕ → Input) (t t' : ℕ) : Prop where
  pos : 0 < t
  lt : t < t'
  first : (inp t).tenkhzTrig = true
  second : (inp t').tenkhzTrig = true
  none : ∀ n, t < n → n < t' → (inp n).tenkhzTrig = false

theorem dcct_run (s : State) (inp : ℕ → Input) (n : ℕ) : (run step s inp n).dcct =
    run DcctModule.step s.dcct (fun n => dcctIn (inp n)) n :=
  run_map step s inp State.dcct (fun _ => dcctIn) (fun _ _ => rfl) n

theorem mon_run (s : State) (inp : ℕ → Input) (n : ℕ) : (run step s inp n).mon =
    run MonModule.step s.mon (fun n => monIn (inp n)) n :=
  run_map step s inp State.mon (fun _ => monIn) (fun _ _ => rfl) n

theorem conversionClocks_le (r : Bool) : Ltc2376.conversionClocks r ≤ 731 := by
  cases r <;> decide

theorem Powered.dcct (h : Powered r inp) (u : ℕ) :
    DcctModule.SpacedRun r (fun n => dcctIn (inp n)) u where
  reset := h.reset
  low n hn _ := h.low n hn
  held n hn _ := h.held n hn
  spaced m n hm hmn _ hsm hsn := by
    have hclocks := conversionClocks_le r
    have := h.spaced m n hm hmn hsm hsn
    omega

theorem Powered.mon (h : Powered r inp) : MonModule.FromReset fun n => monIn (inp n) :=
  ⟨h.reset, h.low⟩

theorem Powered.accepted (h : Powered r inp) (hpos : 0 < t) (ht : (inp t).tenkhzTrig = true) :
    MonModule.accepted s.mon (fun n => monIn (inp n)) t = true :=
  MonModule.accepted_of_start h.mon hpos ht fun m hm hpos' hstart => by
    have := h.spaced m t hpos' hm hstart ht
    omega

theorem Ticks.le (h : Ticks inp t t') {m : ℕ} (hm : t < m) (htick : (inp m).tenkhzTrig = true) :
    t' ≤ m := by
  by_contra hlt
  rw [h.none m hm (by omega)] at htick
  cases htick

/-! ## The readings at a tick -/

/-- The monitors' readings are those of the tick before until the next conversion is over. -/
theorem mon_at (h : Powered r inp) (ht : Ticks inp t t') (hn : t' ≤ n) (hn' : n ≤ t' + 1690)
    (ps : Ps) : ((run step s inp n).mon.gainoff ps).out =
      MonModule.readings s.mon (fun n => monIn (inp n)) t ps := by
  have hgap := h.spaced t t' ht.pos ht.lt ht.first ht.second
  have hle := MonModule.dataClock_le_add s.mon (fun n => monIn (inp n)) t
  rw [mon_run]
  refine MonModule.out_eq_readings h.mon (h.accepted ht.pos ht.first) ps (by omega) ?_
  intro m hm hacc
  have hstart := (MonModule.atRest_of_accepted h.mon hacc 0).2.1
  have hle' := ht.le hm hstart
  have := MonModule.dataClock_ge s.mon (fun n => monIn (inp n)) m
  omega

/-- The DCCT readings are those of the tick before until the next conversion is over. -/
theorem dcct_at (h : Powered r inp) (ht : Ticks inp t t') {v : ℕ}
    (hd : DcctModule.Delivers r s.dcct (fun n => dcctIn (inp n)) t v) (hn : t' ≤ n)
    (hn' : n ≤ t' + 302) (ps : Ps) : ((run step s inp n).dcct.gainoff ps).out =
      DcctModule.readings s.dcct (fun n => dcctIn (inp n)) v ps := by
  have hgap := h.spaced t t' ht.pos ht.lt ht.first ht.second
  have hsoon := hd.soon
  have hclocks := conversionClocks_le r
  rw [dcct_run]
  refine hd.out_eq h.dcct ht.pos ht.first ps (by omega) fun m hm hstart => ?_
  have := ht.le hm hstart
  omega

/-- From the end of a conversion on the DCCT readings are those of the tick. -/
theorem dcct_after (h : Powered r inp) (hpos : 0 < t) (ht : (inp t).tenkhzTrig = true) {v : ℕ}
    (hd : DcctModule.Delivers r s.dcct (fun n => dcctIn (inp n)) t v) (hn : v + 3 ≤ n)
    (hn' : n ≤ t + 2002) (ps : Ps) : ((run step s inp n).dcct.gainoff ps).out =
      DcctModule.readings s.dcct (fun n => dcctIn (inp n)) v ps := by
  rw [dcct_run]
  refine hd.out_eq h.dcct hpos ht ps hn fun m hm hstart => ?_
  have := h.spaced t m hpos hm ht hstart
  omega

/-! ## The bursts -/

/-- What the writer is given from clock 1 on. -/
def snapRun (s : State) (inp : ℕ → Input) (n : ℕ) : Snapshot.Input :=
  snapIn (run step s inp (1 + n)) (inp (1 + n))

/-- The writer after the reset. -/
def snapStart (s : State) (inp : ℕ → Input) : Sys := (run step s inp 1).snap

theorem snap_run (s : State) (inp : ℕ → Input) (n : ℕ) : (run step s inp (1 + n)).snap =
    run sysStep (snapStart s inp) (snapRun s inp) n := by
  have hmap : (run step (run step s inp 1) (fun k => inp (1 + k)) n).snap =
      run sysStep (snapStart s inp) (fun k => snapIn
        (run step (run step s inp 1) (fun k => inp (1 + k)) k) (inp (1 + k))) n :=
    run_map step _ _ State.snap snapIn (fun _ _ => rfl) n
  simp only [← run_add] at hmap
  exact hmap

theorem configured (h : Powered r inp) (hbase : s.snap.regs.addrBase = ddrBaseAddr) :
    Configured (snapStart s inp) := by
  have hreset : (snapIn s (inp 0)).reset = true := h.reset
  have hregs : (snapStart s inp).regs = Snapshot.step s.snap.regs (snapIn s (inp 0)) := rfl
  constructor <;> rw [hregs, Snapshot.step, if_pos hreset]
  exact hbase

theorem snap_low (h : Powered r inp) (n : ℕ) : (snapRun s inp n).reset = false :=
  h.low (1 + n) (by omega)

/-- The bursts begun before clock `n`. -/
def bursts (s : State) (inp : ℕ → Input) (n : ℕ) : ℕ :=
  triggers (snapStart s inp) (snapRun s inp) (n - 1)

/-- What a record holds of burst `k` at clock `n`: the words of its slot. -/
def recorded (s : State) (inp : ℕ → Input) (k n : ℕ) (w : Word) : BitVec 32 :=
  (run step s inp n).snap.ddr.mem (wordAddr (k % ringSlots) w.idx)

theorem bursts_succ (n : ℕ) : bursts s inp (1 + n) =
    triggers (snapStart s inp) (snapRun s inp) n := by
  unfold bursts
  rw [Nat.add_sub_cancel_left]

/-- The writer is in IDLE when the second tick comes. -/
theorem settled (h : Powered r inp) {d : Latency} (hd : d.burst ≤ 300)
    (hm : InTime d (snapStart s inp) (snapRun s inp)) {a : ℕ} (ht : Ticks inp t (1 + a)) :
    taken (snapStart s inp) (snapRun s inp) a = true := by
  have hpos := ht.pos
  have hlt := ht.lt
  have hgap := h.spaced t (1 + a) hpos hlt ht.first ht.second
  obtain ⟨e, hle, he, hidle⟩ := idle_within (snap_low h) hm t
  have hleft := left_le_burst d (run sysStep (snapStart s inp) (snapRun s inp) t).regs.state
  obtain ⟨hs, hp⟩ := idle_of_quiet (snap_low h) hidle (show e < a by omega)
    fun m _ hma => ht.none (1 + m) (by omega) (by omega)
  have htrig : (snapRun s inp a).trigger = true := ht.second
  unfold taken accepts
  simp [snap_low h, hs, hp, htrig]

/-- The burst of the second tick is over before the DCCT readings change. -/
theorem over_within (h : Powered r inp) {d : Latency} (hd : d.burst ≤ 300)
    (hm : InTime d (snapStart s inp) (snapRun s inp)) {a : ℕ} (ht : Ticks inp t (1 + a)) :
    ∃ e, a < e ∧ e ≤ a + 301 ∧
      (run sysStep (snapStart s inp) (snapRun s inp) e).regs.state = .idle ∧
      triggers (snapStart s inp) (snapRun s inp) e =
        triggers (snapStart s inp) (snapRun s inp) a + 1 := by
  obtain ⟨e, hle, he, hidle⟩ := idle_within (snap_low h) hm (a + 1)
  have hleft := left_le_burst d (run sysStep (snapStart s inp) (snapRun s inp) (a + 1)).regs.state
  refine ⟨e, hle, by omega, hidle, ?_⟩
  rw [← show triggers (snapStart s inp) (snapRun s inp) (a + 1) =
    triggers (snapStart s inp) (snapRun s inp) a + 1 from
      tickCount_succ_of_tick (settled h hd hm ht)]
  have hpos : 0 < 1 + a := ht.pos.trans ht.lt
  refine congrArg List.length (ticks_eq_of_none hle fun m ham hme => ?_)
  have hlow : (inp (1 + m)).tenkhzTrig = false := by
    by_contra htick
    have := h.spaced (1 + a) (1 + m) hpos (by omega) ht.second (by simpa using htick)
    omega
  have htrig : (snapRun s inp m).trigger = false := hlow
  unfold taken accepts
  simp [htrig]

/-- The readings in the record of the burst of the second tick are those of the first. -/
theorem recorded_eq (h : Powered r inp) (hbase : s.snap.regs.addrBase = ddrBaseAddr) {d : Latency}
    (hd : d.burst ≤ 300) (hm : InTime d (snapStart s inp) (snapRun s inp)) (ht : Ticks inp t t')
    {v : ℕ} (hv : DcctModule.Delivers r s.dcct (fun n => dcctIn (inp n)) t v) (hn : t' + 301 ≤ n)
    (hring : bursts s inp n ≤ bursts s inp t' + ringSlots) (ps : Ps) (f : Snapshot.Field) :
    recorded s inp (bursts s inp t') n (.ps ps f) =
      f.reading (dcctAdcs (DcctModule.readings s.dcct (fun n => dcctIn (inp n)) v ps))
        (monAdcs (MonModule.readings s.mon (fun n => monIn (inp n)) t ps)) := by
  have hpos := ht.lt
  obtain ⟨a, rfl⟩ : ∃ a, t' = 1 + a := ⟨t' - 1, by omega⟩
  obtain ⟨u, rfl⟩ : ∃ u, n = 1 + u := ⟨n - 1, by omega⟩
  rw [bursts_succ, bursts_succ] at hring
  rw [bursts_succ]
  obtain ⟨e, hae, he, hidle, hcount⟩ := over_within h hd hm ht
  have hmono : triggers (snapStart s inp) (snapRun s inp) e ≤
      triggers (snapStart s inp) (snapRun s inp) u := tickCount_mono (by omega)
  have hin : InRing (snapStart s inp) (snapRun s inp)
      (triggers (snapStart s inp) (snapRun s inp) a) u :=
    ⟨by omega, hring, fun hlast =>
      Or.inl (idle_of_triggers (snap_low h) hidle (by omega) (hlast.trans hcount.symm))⟩
  have hhanded := handed_of_inRing (configured h hbase) (snap_low h) hin (w := .ps ps f) (by simp)
  obtain ⟨c, hac, hce, hword⟩ :=
    handed_between (snap_low h) (settled h hd hm ht) hae hidle hhanded
  unfold recorded
  rw [snap_run, hword]
  have hdcct := dcct_at (n := 1 + c) h ht hv (by omega) (by omega) ps
  have hmon := mon_at (s := s) (n := 1 + c) h ht (by omega) (by omega) ps
  change f.reading (dcctAdcs ((run step s inp (1 + c)).dcct.gainoff ps).out)
    (monAdcs ((run step s inp (1 + c)).mon.gainoff ps).out) = _
  rw [hdcct, hmon]

/-! ## From tick to tick -/

/-- After a tick `adc_done` comes once, at the end of its DCCT conversion, until 300 clocks after
the next tick. -/
theorem adcDone_iff (h : Powered r inp) (ht : Ticks inp t t') {v : ℕ}
    (hd : DcctModule.Delivers r s.dcct (fun n => dcctIn (inp n)) t' v) (hn : t' < n)
    (hnone : ∀ m, t' < m → m + 300 < n → (inp m).tenkhzTrig = false) :
    adcDone (run step s inp n) = true ↔ n = v + 10 := by
  have hgap := h.spaced t t' ht.pos ht.lt ht.first ht.second
  have hclocks := conversionClocks_le r
  have hpos : 0 < t' := ht.pos.trans ht.lt
  have hrun : (run step s inp n).dcct.gainoff .ps1 = run Adc.step (s.dcct.gainoff .ps1)
      (DcctModule.gainRun s.dcct (fun n => dcctIn (inp n)) .ps1) n := by
    rw [dcct_run]
    exact run_map DcctModule.step s.dcct _ (fun s => s.gainoff .ps1)
      (fun s i => DcctModule.gainIn s i .ps1) (fun _ _ => rfl) n
  unfold adcDone
  rw [hrun, Adc.done_iff (DcctModule.pulsed h.dcct .ps1) (by omega)]
  constructor
  · rintro ⟨w, hw, rfl⟩
    obtain ⟨u, hupos, hu, hdu⟩ := DcctModule.start_of_ends h.dcct hw
    have hlate := hdu.late
    have hsoon := hdu.soon
    rcases Nat.lt_trichotomy u t' with hlt | rfl | hgt
    · have := h.spaced u t' hupos hlt hu ht.second
      omega
    · rw [hd.unique h.dcct hpos ht.second hdu]
    · have hlow : (inp u).tenkhzTrig = false := hnone u hgt (by omega)
      exact absurd hu (by simp [dcctIn, hlow])
  · rintro rfl
    exact ⟨v, hd.ends_self h.dcct hpos ht.second, rfl⟩

end Run

/-- **The readings of a tick.** Let two ticks follow each other in a run from a reset. Up to three
hundred clocks after the second, all readings are those of the conversions of the first. The
averages are started once until the next tick, at the end of the second DCCT conversion, and find
its readings beside those of the first conversion of the monitors. With a memory that takes no more
than these clocks for a burst the second tick begins one, and its record has, until the ring comes
round, all readings of the first. -/
theorem record_of_tick {r : Bool} (s : State) {inp : ℕ → Input} (h : Powered r inp)
    (hbase : s.snap.regs.addrBase = ddrBaseAddr) {d : Latency} (hlat : d.burst ≤ 300)
    (hm : InTime d (snapStart s inp) (snapRun s inp)) {t t' : ℕ} (ht : Ticks inp t t') :
    ∃ v v', DcctModule.Delivers r s.dcct (fun n => dcctIn (inp n)) t v ∧
      DcctModule.Delivers r s.dcct (fun n => dcctIn (inp n)) t' v' ∧
      (∀ n, t' ≤ n → n ≤ t' + 300 → ∀ ps,
        ((run step s inp n).dcct.gainoff ps).out =
          DcctModule.readings s.dcct (fun n => dcctIn (inp n)) v ps ∧
        ((run step s inp n).mon.gainoff ps).out =
          MonModule.readings s.mon (fun n => monIn (inp n)) t ps) ∧
      (∀ n, t' < n → (∀ m, t' < m → m + 300 < n → (inp m).tenkhzTrig = false) →
        (adcDone (run step s inp n) = true ↔ n = v' + 10)) ∧
      (∀ ps, ((run step s inp (v' + 10)).dcct.gainoff ps).out =
          DcctModule.readings s.dcct (fun n => dcctIn (inp n)) v' ps ∧
        ((run step s inp (v' + 10)).mon.gainoff ps).out =
          MonModule.readings s.mon (fun n => monIn (inp n)) t ps) ∧
      bursts s inp (t' + 1) = bursts s inp t' + 1 ∧
      ∀ n, t' + 301 ≤ n → bursts s inp n ≤ bursts s inp t' + ringSlots → ∀ ps f,
        recorded s inp (bursts s inp t') n (.ps ps f) =
          f.reading (dcctAdcs (DcctModule.readings s.dcct (fun n => dcctIn (inp n)) v ps))
            (monAdcs (MonModule.readings s.mon (fun n => monIn (inp n)) t ps)) := by
  have hpos : 0 < t' := ht.pos.trans ht.lt
  obtain ⟨v, hd⟩ := DcctModule.exists_delivers (s := s.dcct) h.dcct ht.pos ht.first
  obtain ⟨v', hd'⟩ := DcctModule.exists_delivers (s := s.dcct) h.dcct hpos ht.second
  have hlate := hd'.late
  have hsoon := hd'.soon
  have hclocks := conversionClocks_le r
  refine ⟨v, v', hd, hd', fun n hn hn' ps => ⟨?_, ?_⟩, fun n hn hnone =>
    adcDone_iff h ht hd' hn hnone,
    fun ps => ⟨?_, ?_⟩, ?_, fun n hn hring ps f => ?_⟩
  · exact dcct_at h ht hd hn (by omega) ps
  · exact mon_at h ht hn (by omega) ps
  · exact dcct_after h hpos ht.second hd' (by omega) (by omega) ps
  · exact mon_at h ht (by omega) (by omega) ps
  · obtain ⟨a, rfl⟩ : ∃ a, t' = 1 + a := ⟨t' - 1, by omega⟩
    rw [Nat.add_assoc, bursts_succ, bursts_succ]
    exact tickCount_succ_of_tick (settled h hlat hm ht)
  · exact recorded_eq h hbase hlat hm ht hd hn hring ps f

/-- The registers at configuration. -/
def restState : State := ⟨DcctModule.restState, MonModule.restState, restSys⟩

/-- A tick every 2000 clocks, with a memory that is always ready. -/
def steady (n : ℕ) : Input :=
  ⟨n == 0, n % 2000 == 1, true, fun _ => false, fun _ _ => ⟨0, 0⟩, true, fun k => k.val == 1,
    fun _ _ => ⟨0, 1⟩, true, true, true⟩

theorem powered_steady : Powered true steady where
  reset := rfl
  low _ hn := beq_false_of_ne hn.ne'
  held _ _ := rfl
  spaced m n _ hmn hm hn := by
    have hm' : m % 2000 = 1 := by simpa [steady] using hm
    have hn' : n % 2000 = 1 := by simpa [steady] using hn
    omega

theorem ticks_steady : Ticks steady 1 2001 := by
  refine ⟨by omega, by omega, rfl, rfl, fun n hn hn' => ?_⟩
  change (n % 2000 == 1) = false
  rw [beq_eq_false_iff_ne]
  omega

theorem inTime_steady :
    InTime ⟨1, 1, 1⟩ (snapStart restState steady) (snapRun restState steady) := by
  intro n hn
  cases h : (run sysStep (snapStart restState steady) (snapRun restState steady) n).regs.state with
  | idle => exact absurd h hn
  | address | word | awaitresp => exact ⟨0, Nat.one_pos, rfl⟩

/-- The tick in clock 2001 begins a burst, and its record has what the monitor of the third supply
showed then. -/
theorem second_record :
    bursts restState steady 2002 = bursts restState steady 2001 + 1 ∧
      recorded restState steady (bursts restState steady 2001) 2302 (.ps .ps3 .mon1) =
        (((run step restState steady 2001).mon.gainoff .ps3).out .dacmon).signExtend 32 := by
  obtain ⟨v, v', -, -, hnow, -, -, hburst, hrecord⟩ := record_of_tick restState powered_steady rfl
    (d := ⟨1, 1, 1⟩) (by decide) inTime_steady ticks_steady
  refine ⟨hburst, ?_⟩
  have hring : bursts restState steady 2302 ≤ bursts restState steady 2001 + ringSlots := by
    have hle : bursts restState steady 2302 ≤ 2301 := tickCount_le 2301
    unfold ringSlots
    omega
  rw [hrecord 2302 (by omega) hring, (hnow 2001 (by omega) (by omega) .ps3).2]
  rfl

end Psc.Readout
