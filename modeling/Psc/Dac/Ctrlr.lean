import Psc.Dac.Updates

/-!
# The four DACs

`dac_ctrlr.vhd`: four channels with a data line each. `sclk` is that of the first, and the two lines
of `sync` are those of the first and of the second.

`dacs_updated`: the channels go in step as long as their serialisers are reset together, so each DAC
gets the frames of its own channel on the shared lines.
-/

namespace Psc

open Clocked Spi

/-! ## Serialisers in step -/

namespace Ad5781

/-- The state machine without its data and `done`. -/
def control (f : Fsm) : Fsm := { f with shiftReg := 0, done := false }

section Step

variable {p : Generics} {g g' : InputRegs} {f f' : Fsm} {i i' : Input}

theorem control_fsm (hreset : i.reset = i'.reset) (hstart : i.start = i'.start) :
    control (fsm p g f i) = control (fsm p g' (control f) i') := by
  unfold fsm
  rw [hreset]
  cases i'.reset with
  | true => rfl
  | false =>
    rw [if_neg Bool.false_ne_true, if_neg Bool.false_ne_true]
    cases hs : f.presentState with
    | idle =>
      simp only [control, hs, hstart]
      split_ifs <;> rfl
    | sendCtrlReg | sendSetpoint =>
      simp only [control, hs]
    | _ =>
      simp only [control, hs]
      split_ifs <;> rfl

theorem control_eq_step (hreset : i.reset = i'.reset) (hstart : i.start = i'.start)
    (h : control f = control f') : control (fsm p g f i) = control (fsm p g' f' i') := by
  rw [@control_fsm p g g' f i i' hreset hstart, @control_fsm p g' g' f' i' i' rfl rfl, h]

theorem control_eq_reset (hreset : i.reset = true) (hreset' : i'.reset = true) :
    control (fsm p g f i) = control (fsm p g' f' i') := by
  unfold fsm
  rw [if_pos hreset, if_pos hreset']
  rfl

end Step

theorem control_run {p : Generics} {s s' : State} {inp inp' : ℕ → Input}
    (h0 : (inp 0).reset = true) (hreset : ∀ n, (inp n).reset = (inp' n).reset)
    (hstart : ∀ n, (inp n).start = (inp' n).start) {n : ℕ} (hn : 0 < n) :
    control (run (step p) s inp n).fsm = control (run (step p) s' inp' n).fsm := by
  induction n, hn using Nat.le_induction with
  | base => exact control_eq_reset h0 ((hreset 0).symm.trans h0)
  | succ n _ ih => exact control_eq_step (hreset n) (hstart n) ih

end Ad5781

/-! ## The controller -/

namespace DacCtrlr

/-- The input ports. -/
structure Input where
  reset : Bool
  tenkhzTrig : Bool
  fofbData : Ps → BitVec 20
  numbitsSel : Bool
  dacCntrl : Ps → DacCntrl

/-- The ports of a channel. -/
def chanIn (i : Input) (ps : Ps) : DacChan.Input :=
  ⟨i.reset, i.tenkhzTrig, i.fofbData ps, i.numbitsSel, i.dacCntrl ps⟩

/-- One clock of the four channels. -/
def step (cosine : BitVec 24 → BitVec 24) (s : Ps → DacChan.State) (i : Input) :
    Ps → DacChan.State :=
  fun ps => DacChan.step cosine (s ps) (chanIn i ps)

/-- The two lines of `sync`. -/
def sync (s : Ps → DacChan.State) : Bool → Bool
  | false => (s .ps1).spi.fsm.nSync
  | true => (s .ps2).spi.fsm.nSync

/-- What a DAC sees that is on one of the two lines of `sync`, on `sclk`, and on the data line of a
supply. -/
def dacLines (line : Bool) (ps : Ps) (s : Ps → DacChan.State) : Lines where
  nSync := sync s line
  sclk := (s .ps1).spi.fsm.sclk
  sdo := (Ad5781.lines (s ps).spi.fsm).sdo

section Ctrlr

variable {cosine : BitVec 24 → BitVec 24} {s : Ps → DacChan.State} {inp : ℕ → Input} {n : ℕ}

theorem run_chan (ps : Ps) (n : ℕ) : run (step cosine) s inp n ps =
    run (DacChan.step cosine) (s ps) (fun n => chanIn (inp n) ps) n :=
  run_map (step cosine) s inp (fun s => s ps) (fun _ i => chanIn i ps) (fun _ _ => rfl) n

theorem control_eq (h : ∀ ps, DacChan.Powered (s ps) fun n => chanIn (inp n) ps) (ps ps' : Ps)
    (hn : 0 < n) : Ad5781.control (run (step cosine) s inp n ps).spi.fsm =
      Ad5781.control (run (step cosine) s inp n ps').spi.fsm := by
  rw [run_chan, run_chan, DacChan.run_spi, DacChan.run_spi]
  refine Ad5781.control_run (h ps).dacReset ?_ ?_ hn
  · intro n
    rcases Nat.eq_zero_or_pos n with rfl | hn
    · exact (h ps).dacReset.trans (h ps').dacReset.symm
    · exact ((h ps).dacLow n hn).trans ((h ps').dacLow n hn).symm
  · intro n
    exact Bool.eq_iff_iff.mpr ((DacChan.start_iff cosine (h ps) n).trans
      (DacChan.start_iff cosine (h ps') n).symm)

theorem dacLines_eq (h : ∀ ps, DacChan.Powered (s ps) fun n => chanIn (inp n) ps) (line : Bool)
    (ps : Ps) (hn : 0 < n) : dacLines line ps (run (step cosine) s inp n) =
      DacChan.wave cosine (s ps) (fun n => chanIn (inp n) ps) n := by
  have hsync : ∀ ps', (run (step cosine) s inp n ps').spi.fsm.nSync =
      (run (step cosine) s inp n ps).spi.fsm.nSync := fun ps' =>
    congrArg (fun f => f.nSync) (control_eq h ps' ps hn)
  have hsclk : (run (step cosine) s inp n .ps1).spi.fsm.sclk =
      (run (step cosine) s inp n ps).spi.fsm.sclk :=
    congrArg (fun f => f.sclk) (control_eq h .ps1 ps hn)
  have hline : sync (run (step cosine) s inp n) line =
      (run (step cosine) s inp n ps).spi.fsm.nSync := by
    cases line with
    | false => exact hsync .ps1
    | true => exact hsync .ps2
  rw [DacChan.wave, ← run_chan, dacLines, hline, hsclk]
  rfl

end Ctrlr

/-- **The DACs.** In every run from a reset of the controller and of the four serialisers, in which
the ticks leave the time for a transfer: when the transfer of the last tick is over, each DAC has
got the frames of all ticks in their order, with the calibrated setpoints of its own channel,
whichever line of `sync` it is on. -/
theorem dacs_updated (cosine : BitVec 24 → BitVec 24) (s : Ps → DacChan.State) (inp : ℕ → Input)
    (h : ∀ ps, DacChan.Powered (s ps) fun n => chanIn (inp n) ps) (line : Bool) (ps : Ps) {n : ℕ}
    (hrest : Rested (fun n => (inp n).tenkhzTrig) DacChan.tickClocks n) (hn : 0 < n) :
    frames (fun n => dacLines line ps (run (step cosine) s inp n)) n =
      DacChan.framesOf cosine (s ps) (fun n => chanIn (inp n) ps)
        (ticks (fun n => (inp n).tenkhzTrig) n) := by
  have hsync : (DacChan.wave cosine (s ps) (fun n => chanIn (inp n) ps) 1).nSync = true := by
    show (run (DacChan.step cosine) (s ps) (fun n => chanIn (inp n) ps) 1).spi.fsm.nSync = true
    have hreset : (DacChan.spiRun cosine (s ps) (fun n => chanIn (inp n) ps) 0).reset = true :=
      (h ps).dacReset
    rw [DacChan.run_spi, Ad5781.fsm_run_succ, Ad5781.fsm, if_pos hreset]
    rfl
  rw [frames_congr hsync (fun n hn => dacLines_eq h line ps hn) hn]
  exact DacChan.frames_of_ticks cosine (h ps) hrest hn

/-- The registers of a channel before the reset. -/
def restChan : DacChan.State where
  chan := Chan.restChan
  ramp := ⟨⟨.idle, 0, false, false, 0⟩, ⟨fun _ => 0, 0⟩⟩
  spi := Ad5781.restState

/-- A reset, and two ticks, in jump mode with gain 1. The setpoint of the third supply changes
between them. -/
def twoTicks (n : ℕ) : Input where
  reset := n == 0
  tenkhzTrig := n == 1 || n == 600
  fofbData _ := 0
  numbitsSel := true
  dacCntrl ps :=
    { GainOffset.cntrlOf 0 1048576 with
      cntrl := 0x12
      setpoint := if ps = .ps3 then if n < 300 then 0x12345 else 0xFEDCB else 0
      mode := 3
      reset := n == 0 }

theorem twoTicks_iff {n : ℕ} : (twoTicks n).tenkhzTrig = true ↔ n = 1 ∨ n = 600 := by
  simp [twoTicks]

theorem powered_twoTicks (ps : Ps) : DacChan.Powered restChan fun n => chanIn (twoTicks n) ps where
  state := rfl
  done := rfl
  first := rfl
  dacReset := rfl
  low _ hn := beq_false_of_ne hn.ne'
  dacLow _ hn := beq_false_of_ne hn.ne'
  spaced t t' htt' ht ht' := by
    have hclocks : DacChan.tickClocks = 557 := by decide
    obtain rfl | rfl := twoTicks_iff.mp ht
    · obtain rfl | rfl := twoTicks_iff.mp ht'
      · omega
      · omega
    · obtain rfl | rfl := twoTicks_iff.mp ht'
      · omega
      · omega

/-- The DAC of the third supply, on the line of the first. -/
theorem third_dac_updated :
    frames (fun n => dacLines false .ps3
      (run (step SmoothRamp.coarseCosine) (fun _ => restChan) twoTicks n)) 1200 =
        [wordBits 0x400004#24, wordBits 0x112345#24, wordBits 0x200030#24,
          wordBits 0x1FEDCB#24] := by
  have hnone : ∀ u, u ≠ 1 → u ≠ 600 → (twoTicks u).tenkhzTrig = false := by
    intro u h1 h600
    rw [← Bool.not_eq_true, twoTicks_iff]
    omega
  have hticks : ticks (fun n => (twoTicks n).tenkhzTrig) 1200 = [600, 1] := by
    rw [ticks_eq_of_none (by decide : 601 ≤ 1200) fun u _ _ => hnone u (by omega) (by omega),
      ticks_succ_of_tick rfl, ticks_eq_of_none (by decide : 2 ≤ 600) fun u _ _ =>
        hnone u (by omega) (by omega)]
    rfl
  have hrest : Rested (fun n => (twoTicks n).tenkhzTrig) DacChan.tickClocks 1200 := by
    intro t _ ht
    obtain rfl | rfl := twoTicks_iff.mp ht <;> decide
  rw [dacs_updated SmoothRamp.coarseCosine (fun _ => restChan) twoTicks powered_twoTicks false .ps3
    hrest (by decide), hticks]
  decide +kernel

end DacCtrlr

end Psc
