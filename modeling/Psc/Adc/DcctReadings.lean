import Psc.Adc.Calibrator

/-!
# The DCCT readings over a run

`dcct_adc_module.vhd`: each start delivers its data once (`exists_delivers`), and the readings are
those of the last data, until the next have been calibrated (`Delivers.out_eq`).
-/

namespace Psc.DcctModule

open Clocked Ltc2376

/-- The clocks in which `conv_done` comes up after a reset in clock 0. -/
def ends (s : State) (inp : ℕ → Input) (n : ℕ) : Bool :=
  decide (1 < n) && convDone (run step s inp n) && !convDone (run step s inp (n - 1))

/-- The readings of a supply whose conversion has its data in clock `v`. -/
def readings (s : State) (inp : ℕ → Input) (v : ℕ) (ps : Ps) (c : Adc.DcctInput) : BitVec 20 :=
  Adc.fixedMul (raw (run step s inp (v + 1)) ps c - ((inp (v + 1)).dcctParams ps c).offset)
    ((inp (v + 2)).dcctParams ps c).gain 4

/-- What the calibrator of a supply is given. -/
def gainRun (s : State) (inp : ℕ → Input) (ps : Ps) (n : ℕ) : Adc.Input Adc.DcctInput 20 :=
  gainIn (run step s inp n) (inp n) ps

section Run

variable {r : Bool} {s : State} {inp : ℕ → Input} {t n : ℕ}

theorem ends_iff : ends s inp n = true ↔ 1 < n ∧ convDone (run step s inp n) = true ∧
    convDone (run step s inp (n - 1)) = false := by
  simp [ends, and_assoc]

theorem quiet_of_start (h : ∀ u, SpacedRun r inp u) (hpos : 0 < t) (hstart : (inp t).start = true)
    {k : ℕ} (htk : t < k) (hk : k ≤ t + conversionClocks r) : (inp k).start = false := by
  by_contra hs
  have := (h (k + 1)).spaced t k hpos htk k.lt_succ_self hstart (by simpa using hs)
  omega

/-- The data of the start in clock `t` are there from clock `v` on: `conv_done` is up for five
clocks, up to the next start, and the registers hold the bits that each interface has taken. -/
structure Delivers (r : Bool) (s : State) (inp : ℕ → Input) (t v : ℕ) : Prop where
  late : t + 300 < v
  soon : v + 5 ≤ t + conversionClocks r
  convDone : ∀ m, t < m → (∀ k, t < k → k < m → (inp k).start = false) →
    (convDone (run step s inp m) = true ↔ v ≤ m ∧ m < v + 5)
  converted : ∀ ps, Converted r ((run step s inp (v + 1)).adc ps).fsm
    (sampled (s.adc ps) (fun k => adcIn (inp k) ps) t (t + conversionClocks r))

theorem exists_delivers (h : ∀ u, SpacedRun r inp u) (hpos : 0 < t)
    (hstart : (inp t).start = true) : ∃ v, Delivers r s inp t v := by
  have hquiet : ∀ k, t < k → k < t + conversionClocks r → (inp k).start = false :=
    fun k htk hk => quiet_of_start h hpos hstart htk hk.le
  obtain ⟨v, hlate, hv, hrdy, -⟩ := @converts r s inp _ (h _) .ps1 t _ hpos hstart le_rfl
    (Nat.lt_succ_self _) hquiet
  refine ⟨v, hlate, hv, fun m htm hm => ?_, fun ps => ?_⟩
  · rcases Nat.le_total m (t + conversionClocks r) with hle | hge
    · exact hrdy m htm hle
    · obtain ⟨v', hlate', hv', hrdy', -⟩ := @converts r s inp _ (h _) .ps1 t m hpos hstart hge
        (Nat.lt_succ_self _) hm
      -- the conversion is the same one
      have hup := (hrdy v (by omega) (by omega)).mpr ⟨le_rfl, by omega⟩
      have hup' := (hrdy' v' (by omega) (by omega)).mpr ⟨le_rfl, by omega⟩
      have h1 := (hrdy' v (by omega) (by omega)).mp hup
      have h2 := (hrdy v' (by omega) (by omega)).mp hup'
      obtain rfl : v = v' := by omega
      exact hrdy' m htm le_rfl
  · obtain ⟨w, hlate', hw, hrdy', hconv⟩ := @converts r s inp _ (h _) ps t _ hpos hstart le_rfl
      (Nat.lt_succ_self _) hquiet
    have hsame : ∀ m, t < m → m ≤ t + conversionClocks r →
        (v ≤ m ∧ m < v + 5 ↔ w ≤ m ∧ m < w + 5) := by
      intro m htm hm
      rw [← hrdy m htm hm, ← hrdy' m htm hm, @dataRdy_eq r s inp _ (h 0) .ps1 m (by omega),
        @dataRdy_eq r s inp _ (h 0) ps m (by omega)]
    have h1 := (hsame v (by omega) (by omega)).mp ⟨le_rfl, by omega⟩
    exact hconv (v + 1) (by omega) (by omega)

theorem start_of_convDone (h : ∀ u, SpacedRun r inp u) (hn : 0 < n)
    (hup : convDone (run step s inp n) = true) : ∃ t, 0 < t ∧ t < n ∧ (inp t).start = true ∧
      ∀ k, t < k → k < n → (inp k).start = false := by
  rcases @atRest_or_converting r s inp _ (h (n + 1)) .ps1 n hn n.lt_succ_self with
    hrest | ⟨t, hpos, htn, hle, hstart, -⟩
  · rw [convDone, hrest.dataRdy] at hup
    cases hup
  · exact ⟨t, hpos, htn, hstart, fun k htk hk => quiet_of_start h hpos hstart htk (by omega)⟩

theorem Delivers.ends_iff {v : ℕ} (hd : Delivers r s inp t v) (htn : t < n)
    (hn : ∀ k, t < k → k < n → (inp k).start = false) : ends s inp n = true ↔ n = v := by
  have hlate := hd.late
  have hup := hd.convDone
  rw [DcctModule.ends_iff]
  constructor
  · rintro ⟨-, h1, h2⟩
    have hn' := (hup n htn hn).mp h1
    by_contra hne
    rw [(hup (n - 1) (by omega) fun k htk hk => hn k htk (by omega)).mpr ⟨by omega, by omega⟩] at h2
    cases h2
  · rintro rfl
    refine ⟨by omega, (hup n htn hn).mpr ⟨le_rfl, by omega⟩, ?_⟩
    rw [← Bool.not_eq_true, hup (n - 1) (by omega) fun k htk hk => hn k htk (by omega)]
    omega

theorem Delivers.ends_self (h : ∀ u, SpacedRun r inp u) (hpos : 0 < t)
    (hstart : (inp t).start = true) {v : ℕ} (hd : Delivers r s inp t v) : ends s inp v = true := by
  have hlate := hd.late
  have hsoon := hd.soon
  exact (hd.ends_iff (by omega) fun k htk hk =>
    quiet_of_start h hpos hstart htk (by omega)).mpr rfl

theorem start_of_ends (h : ∀ u, SpacedRun r inp u) (hn : ends s inp n = true) :
    ∃ t, 0 < t ∧ (inp t).start = true ∧ Delivers r s inp t n := by
  obtain ⟨hpos, hup, -⟩ := ends_iff.mp hn
  obtain ⟨t, htpos, htn, hstart, hquiet⟩ := start_of_convDone h (by omega) hup
  obtain ⟨v, hd⟩ := exists_delivers (s := s) h htpos hstart
  obtain rfl := (hd.ends_iff htn hquiet).mp hn
  exact ⟨t, htpos, hstart, hd⟩

theorem Delivers.unique (h : ∀ u, SpacedRun r inp u) (hpos : 0 < t)
    (hstart : (inp t).start = true) {v v' : ℕ} (hd : Delivers r s inp t v)
    (hd' : Delivers r s inp t v') : v' = v := by
  have hlate' := hd'.late
  have hsoon' := hd'.soon
  exact (hd.ends_iff (by omega) fun k htk hk =>
    quiet_of_start h hpos hstart htk (by omega)).mp (hd'.ends_self h hpos hstart)

theorem pulsed (h : ∀ u, SpacedRun r inp u) (ps : Ps) :
    Adc.Pulsed (gainRun s inp ps) (ends s inp) where
  low n hn := (h (n + 1)).low n hn n.lt_succ_self
  late n hn := by
    obtain ⟨t, -, -, hd⟩ := start_of_ends h hn
    have := hd.late
    omega
  spaced n n' hnn' hn hn' := by
    obtain ⟨t, hpos, hstart, hd⟩ := start_of_ends h hn
    obtain ⟨t', hpos', hstart', hd'⟩ := start_of_ends h hn'
    have hsoon := hd.soon
    have hlate := hd.late
    have hlate' := hd'.late
    have hsoon' := hd'.soon
    rcases Nat.lt_trichotomy t t' with hlt | rfl | hgt
    · have := (h (t' + 1)).spaced t t' hpos hlt t'.lt_succ_self hstart hstart'
      omega
    · have := hd.unique h hpos hstart hd'
      omega
    · have := (h (t + 1)).spaced t' t hpos' hgt t.lt_succ_self hstart' hstart
      omega
  up n hn := (ends_iff.mp hn).2.1
  down n hn hup := by
    obtain ⟨t, hpos, htn, hstart, hquiet⟩ := start_of_convDone h hn hup
    obtain ⟨v, hd⟩ := exists_delivers (s := s) h hpos hstart
    obtain ⟨hvn, hlt⟩ := (hd.convDone n htn hquiet).mp hup
    exact ⟨v, hd.ends_self h hpos hstart, hvn, by omega⟩

/-- **The readings.** After a conversion, and up to the readings of the next start, the readings are
those of its data. -/
theorem Delivers.out_eq (h : ∀ u, SpacedRun r inp u) (hpos : 0 < t) (hstart : (inp t).start = true)
    {v : ℕ} (hd : Delivers r s inp t v) (ps : Ps) (hn : v + 3 ≤ n)
    (hnext : ∀ t', t < t' → (inp t').start = true → n ≤ t' + 302) :
    ((run step s inp n).gainoff ps).out = readings s inp v ps := by
  have hrun : (run step s inp n).gainoff ps = run Adc.step (s.gainoff ps) (gainRun s inp ps) n :=
    run_map step s inp (fun s => s.gainoff ps) (fun s i => gainIn s i ps) (fun _ _ => rfl) n
  rw [hrun, Adc.out_of_start (pulsed h ps) (hd.ends_self h hpos hstart) hn]
  · rfl
  · intro m hvm hmn
    by_contra hup
    obtain ⟨t', hpos', hstart', hd'⟩ :=
      start_of_ends h (show ends s inp m = true by simpa using hup)
    have hlate := hd.late
    have hlate' := hd'.late
    have hsoon' := hd'.soon
    rcases Nat.lt_trichotomy t t' with hlt | rfl | hgt
    · have := hnext t' hlt hstart'
      omega
    · have := hd.unique h hpos hstart hd'
      omega
    · have := (h (t + 1)).spaced t' t hpos' hgt t.lt_succ_self hstart' hstart
      omega

end Run

end Psc.DcctModule
