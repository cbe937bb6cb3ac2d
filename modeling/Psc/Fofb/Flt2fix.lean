import Psc.Lib.NumericStd
import Psc.Lib.ToggleSync

/-!
# FOFB setpoints into the DAC domain

`fofb_flt2fix.vhd` from `fofb_valid` on: the converted setpoint, 24 bits wide, is cut to 20 bits in
the `fofb_clk` domain and crosses to `pl_clk0` with a toggle.

1. `crossing`: each setpoint that is registered comes out once, whole and in order.
2. `fofbSetpt_eq_clamp_iff`: the cut keeps the low 20 bits, so what comes out is the saturated value
   exactly if there was nothing to saturate, or by chance (`CutHarmless`).
-/

namespace Psc.Flt2fix

open Clocked NumericStd

/-! ## The crossing -/

/-- An edge of one of the two clocks. `fofb_clk` comes with the result of `float_to_fix` if
`fofb_valid` is high. `pl_clk0` comes with what it sees where a signal has changed since its last
edge: `pick` is high if `data_toggle_meta` takes the new value of the toggle, and `mask` has the
bits of `setpt` of which it takes the new value. -/
inductive Edge where
  | fofbClk (setptoutFp : Option (BitVec 24))
  | plClk0 (pick : Bool) (mask : BitVec 20)

/-- The registers, and the signals that cross as the last `pl_clk0` edge found them. -/
structure State where
  setpt : BitVec 20
  fofbDataToggle : Bool
  dataToggleMeta : Bool
  dataToggleSync1 : Bool
  dataToggleSync2 : Bool
  dataTogglePrev : Bool
  fofbSetpt : BitVec 20
  dataRdy : Bool
  setptSeen : BitVec 20
  toggleSeen : Bool

/-- The bits of `new` in `mask`, and of `old` elsewhere. -/
def mix (mask new old : BitVec 20) : BitVec 20 := (new &&& mask) ||| (old &&& ~~~mask)

/-- `setptout_fp(19 downto 0)`. -/
def cut (setptoutFp : BitVec 24) : BitVec 20 := setptoutFp.extractLsb' 0 20

/-- One edge. -/
def step (s : State) : Edge → State
  | .fofbClk none => s
  | .fofbClk (some setptoutFp) =>
    { s with setpt := cut setptoutFp, fofbDataToggle := !s.fofbDataToggle }
  | .plClk0 pick mask =>
    { s with
      dataToggleMeta := if pick then s.fofbDataToggle else s.toggleSeen
      dataToggleSync1 := s.dataToggleMeta
      dataToggleSync2 := s.dataToggleSync1
      fofbSetpt :=
        if s.dataToggleSync2 ≠ s.dataTogglePrev then mix mask s.setpt s.setptSeen else s.fofbSetpt
      dataRdy := s.dataToggleSync2 ≠ s.dataTogglePrev
      dataTogglePrev := s.dataToggleSync2
      setptSeen := s.setpt
      toggleSeen := s.fofbDataToggle }

/-- The toggles start low. -/
structure Initial (s : State) : Prop where
  fofbDataToggle : s.fofbDataToggle = false
  dataToggleMeta : s.dataToggleMeta = false
  dataToggleSync1 : s.dataToggleSync1 = false
  dataToggleSync2 : s.dataToggleSync2 = false
  dataTogglePrev : s.dataTogglePrev = false
  toggleSeen : s.toggleSeen = false

/-- The number of `pl_clk0` edges since the last `fofb_valid`, if there was one. -/
def since (inp : ℕ → Edge) : ℕ → Option ℕ
  | 0 => none
  | n + 1 =>
    match inp n with
    | .fofbClk none => since inp n
    | .fofbClk (some _) => some 0
    | .plClk0 _ _ => (since inp n).map (· + 1)

/-- At least six `pl_clk0` edges are between two `fofb_valid`. -/
def Spaced (inp : ℕ → Edge) : Prop :=
  ∀ n v, inp n = .fofbClk (some v) → ∀ k ∈ since inp n, 6 ≤ k

/-- The results of `float_to_fix` before edge `n`. -/
def converted (inp : ℕ → Edge) : ℕ → List (BitVec 24)
  | 0 => []
  | n + 1 =>
    match inp n with
    | .fofbClk (some v) => converted inp n ++ [v]
    | _ => converted inp n

/-- The setpoints that come out: `fofb_setpt` in each cycle of `pl_clk0` with `data_rdy` high. -/
def delivered (st : ℕ → State) (inp : ℕ → Edge) : ℕ → List (BitVec 20)
  | 0 => []
  | n + 1 =>
    match inp n with
    | .plClk0 _ _ =>
      if (st (n + 1)).dataRdy then delivered st inp n ++ [(st (n + 1)).fofbSetpt]
      else delivered st inp n
    | _ => delivered st inp n

/-! ## A toggle synchroniser -/

/-- The circuit as a toggle synchroniser. -/
def State.sync (s : State) : ToggleSync.State (BitVec 20) where
  data := s.setpt
  toggle := s.fofbDataToggle
  stage1 := s.dataToggleMeta
  stage2 := s.dataToggleSync1
  stage3 := s.dataToggleSync2
  prev := s.dataTogglePrev
  out := s.fofbSetpt
  ready := s.dataRdy
  seenData := s.setptSeen
  seenToggle := s.toggleSeen

def Edge.sync : Edge → ToggleSync.Edge (BitVec 20) (BitVec 20)
  | .fofbClk v => .src (v.map cut)
  | .plClk0 pick mask => .dst pick mask

theorem mix_self (mask x : BitVec 20) : mix mask x x = x := by
  unfold mix
  ext i hi
  simp only [BitVec.getElem_or, BitVec.getElem_and, BitVec.getElem_not]
  cases x[i] <;> cases mask[i] <;> rfl

theorem sync_step (s : State) (e : Edge) :
    (step s e).sync = ToggleSync.step mix s.sync e.sync := by
  cases e with
  | fofbClk v => cases v <;> rfl
  | plClk0 pick mask => rfl

section Sync

variable {s : State} {inp : ℕ → Edge}

theorem sync_run (n : ℕ) : (run step s inp n).sync =
    run (ToggleSync.step mix) s.sync (fun k => (inp k).sync) n := by
  induction n with
  | zero => rfl
  | succ n ih => rw [run_succ, run_succ, sync_step, ih]

theorem since_sync (n : ℕ) : ToggleSync.since (fun k => (inp k).sync) n = since inp n := by
  induction n with
  | zero => rfl
  | succ n ih =>
    unfold ToggleSync.since since
    rw [ih]
    cases inp n with
    | fofbClk v => cases v <;> rfl
    | plClk0 pick mask => rfl

theorem sent_sync (n : ℕ) :
    ToggleSync.sent (fun k => (inp k).sync) n = (converted inp n).map cut := by
  induction n with
  | zero => rfl
  | succ n ih =>
    unfold ToggleSync.sent converted
    rw [ih]
    cases inp n with
    | fofbClk v =>
      cases v with
      | none => rfl
      | some v =>
        show (converted inp n).map cut ++ [cut v] = (converted inp n ++ [v]).map cut
        rw [List.map_append, List.map_singleton]
    | plClk0 pick mask => rfl

theorem taken_sync (n : ℕ) :
    ToggleSync.taken (run (ToggleSync.step mix) s.sync fun k => (inp k).sync)
      (fun k => (inp k).sync) n = delivered (run step s inp) inp n := by
  induction n with
  | zero => rfl
  | succ n ih =>
    unfold ToggleSync.taken delivered
    rw [ih, ← sync_run]
    cases inp n with
    | fofbClk v => cases v <;> rfl
    | plClk0 pick mask => rfl

theorem spaced_sync (h : Spaced inp) : ToggleSync.Spaced fun k => (inp k).sync := by
  intro n v hv
  rw [since_sync]
  cases he : inp n with
  | fofbClk w =>
    cases w with
    | none => simp [he, Edge.sync] at hv
    | some w => exact h n w he
  | plClk0 pick mask => simp [he, Edge.sync] at hv

theorem initial_sync (hs : Initial s) : ToggleSync.Initial s.sync :=
  ⟨hs.fofbDataToggle, hs.dataToggleMeta, hs.dataToggleSync1, hs.dataToggleSync2,
    hs.dataTogglePrev, hs.toggleSeen⟩

theorem delivered_cases (hs : Initial s) (hspaced : Spaced inp) (n : ℕ) :
    delivered (run step s inp) inp n = (converted inp n).map cut ∨
      (∃ k ∈ since inp n, k ≤ 4) ∧
        delivered (run step s inp) inp n = ((converted inp n).map cut).dropLast := by
  have h := (ToggleSync.crossed (initial_sync hs) mix_self (spaced_sync hspaced) n).1
  rwa [taken_sync, since_sync, sent_sync] at h

theorem fofbSetpt_eq_getLast (hs : Initial s) (hspaced : Spaced inp) (n : ℕ) :
    (run step s inp n).fofbSetpt =
      (delivered (run step s inp) inp n).getLast?.getD s.fofbSetpt := by
  have h := (ToggleSync.crossed (initial_sync hs) mix_self (spaced_sync hspaced) n).2
  rwa [taken_sync, ← sync_run] at h

end Sync

/-- **The crossing.** Whatever the order of the edges and whatever `pl_clk0` sees of a signal that
changes: the setpoints delivered are the ones registered, one cycle each and in order, but for the
last one in the first four `pl_clk0` edges after it; and `fofb_setpt` is the last one delivered. -/
theorem crossing (s : State) (inp : ℕ → Edge) (hs : Initial s) (hspaced : Spaced inp) (n : ℕ) :
    (delivered (run step s inp) inp n = (converted inp n).map cut ∨
      (∃ k ∈ since inp n, k ≤ 4) ∧
        delivered (run step s inp) inp n = ((converted inp n).map cut).dropLast) ∧
    (run step s inp n).fofbSetpt =
      (delivered (run step s inp) inp n).getLast?.getD s.fofbSetpt :=
  ⟨delivered_cases hs hspaced n, fofbSetpt_eq_getLast hs hspaced n⟩

/-- One setpoint, then eight edges of `pl_clk0` with one of `fofb_clk` between them; the first sees
the old toggle. -/
def oneSetpt (v : BitVec 24) : ℕ → Edge
  | 0 => .fofbClk (some v)
  | 1 => .plClk0 false 0x0F0F0
  | 3 => .fofbClk none
  | _ => .plClk0 true 0

/-- Toggles low. -/
def restState : State := ⟨0, false, false, false, false, false, 0, false, 0, false⟩

theorem initial_restState : Initial restState := ⟨rfl, rfl, rfl, rfl, rfl, rfl⟩

theorem spaced_oneSetpt (v : BitVec 24) : Spaced (oneSetpt v) := by
  intro n w hw
  match n with
  | 0 => exact fun k hk => by simp [since] at hk
  | 1 | 2 | 3 | n + 4 => simp [oneSetpt] at hw

/-- Two setpoints, seven `pl_clk0` edges apart. After each one the first edge sees the old toggle
and a mixture of the old and the new bits. -/
def twoSetpts (v w : BitVec 24) : ℕ → Edge
  | 0 => .fofbClk (some v)
  | 1 => .plClk0 false 0x0F0F0
  | 3 => .fofbClk none
  | 9 => .fofbClk (some w)
  | 10 => .plClk0 false 0xFF00F
  | 12 => .fofbClk none
  | _ => .plClk0 true 0

theorem spaced_twoSetpts (v w : BitVec 24) : Spaced (twoSetpts v w) := by
  intro n x hx
  match n with
  | 0 => exact fun k hk => by simp [since] at hk
  | 9 =>
    intro k hk
    have hsince : since (twoSetpts v w) 9 = some 7 := rfl
    rw [hsince, Option.mem_some] at hk
    omega
  | 1 | 2 | 3 | 4 | 5 | 6 | 7 | 8 | 10 | 11 | 12 | n + 13 => simp [twoSetpts] at hx

/-- Both setpoints, one of them negative, come out in order. -/
theorem crossing_twoSetpts :
    delivered (run step restState (twoSetpts 1000 (-5))) (twoSetpts 1000 (-5)) 16 = [1000, -5] ∧
      (run step restState (twoSetpts 1000 (-5)) 16).fofbSetpt = -5 := by
  have h := crossing restState (twoSetpts 1000 (-5)) initial_restState (spaced_twoSetpts _ _) 16
  have hlist : delivered (run step restState (twoSetpts 1000 (-5))) (twoSetpts 1000 (-5)) 16 =
      [1000, -5] := by
    rcases h.1 with h | ⟨⟨k, hk, hle⟩, -⟩
    · exact h
    · have hsince : since (twoSetpts 1000 (-5)) 16 = some 5 := rfl
      rw [hsince, Option.mem_some] at hk
      omega
  refine ⟨hlist, ?_⟩
  rw [h.2, hlist]
  rfl

/-! ## Saturation -/

/-- The value fits into 20 bits, or what is left of it happens to be the end of the range on its
side. -/
def CutHarmless (x : ℤ) : Prop :=
  (-2 ^ 19 ≤ x ∧ x < 2 ^ 19) ∨ (2 ^ 19 ≤ x ∧ x % 2 ^ 20 = 2 ^ 19 - 1) ∨
    (x < -2 ^ 19 ∧ x % 2 ^ 20 = 2 ^ 19)

theorem toInt_cut_eq_clamp_iff (v : BitVec 24) :
    (cut v).toInt = clamp 20 v.toInt ↔ CutHarmless v.toInt := by
  have hcut : (cut v).toInt = v.toInt.bmod (2 ^ 20) := by
    have h := toInt_extractLsb'_eq_bmod v 0 20 (by omega)
    rw [pow_zero, Int.ediv_one] at h
    exact h
  rw [hcut, Int.bmod_def]
  unfold clamp CutHarmless
  norm_num
  split_ifs <;> omega

/-- **Saturation.** For every value `v` that `float_to_fix` puts out: once it has crossed,
`fofb_setpt` is `v` limited to 20 bits exactly if the cut does it no harm. -/
theorem fofbSetpt_eq_clamp_iff (s : State) (inp : ℕ → Edge) (hs : Initial s) (hspaced : Spaced inp)
    (n : ℕ) (v : BitVec 24) (hlast : (converted inp n).getLast? = some v)
    (hsince : ∃ k ∈ since inp n, 5 ≤ k) :
    (run step s inp n).fofbSetpt.toInt = clamp 20 v.toInt ↔ CutHarmless v.toInt := by
  have hall : delivered (run step s inp) inp n = (converted inp n).map cut := by
    obtain ⟨k, hk, hle⟩ := hsince
    rcases delivered_cases hs hspaced n with h | ⟨⟨j, hj, hjle⟩, -⟩
    · exact h
    · obtain rfl := Option.mem_unique hk hj
      omega
  rw [fofbSetpt_eq_getLast hs hspaced n, hall, List.getLast?_map, hlast]
  exact toInt_cut_eq_clamp_iff v

/-- The largest value that fits comes out as it is. -/
theorem fofbSetpt_full_scale :
    (run step restState (oneSetpt 0x07FFFF) 7).fofbSetpt.toInt =
      clamp 20 (0x07FFFF : BitVec 24).toInt :=
  (fofbSetpt_eq_clamp_iff restState (oneSetpt 0x07FFFF) initial_restState
    (spaced_oneSetpt 0x07FFFF) 7 0x07FFFF rfl ⟨5, rfl, le_rfl⟩).mpr (Or.inl (by decide))

/-- One more comes out at the other end of the range. -/
theorem fofbSetpt_above_full_scale :
    (run step restState (oneSetpt 0x080000) 7).fofbSetpt.toInt = -2 ^ 19 ∧
      clamp 20 (0x080000 : BitVec 24).toInt = 2 ^ 19 - 1 ∧
      (run step restState (oneSetpt 0x080000) 7).fofbSetpt.toInt ≠
        clamp 20 (0x080000 : BitVec 24).toInt := by
  decide

end Psc.Flt2fix
