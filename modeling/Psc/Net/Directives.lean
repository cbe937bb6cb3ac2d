import Psc.Lib.LineReader
import Psc.Net.NetConf

/-!
# Directives

`sdcard_netconf` in `sdcard.c`. Every call of `f_gets` fills the front of the buffer with at most 63
characters, and a chain of comparisons takes the command that the tokeniser finds there.

1. `netconfLine_eq`: a line does what it says, whatever an earlier one left in the buffer.
2. `hwaddr_iff`: a hardware address is taken exactly if it is six pairs of digits.
3. `rejected_iff`: a line with a warning changes nothing, unless it is an `addr` that turns static
   addresses on.
-/

namespace Psc.Net

open CString Words

/-! ## The configuration -/

/-- `net_config`. -/
structure NetConfig where
  addr : BitVec 32
  mask : BitVec 32
  gw : BitVec 32
  useStatic : Byte
  hwaddr : Hwaddr
  deriving DecidableEq

/-- The warnings, with what is put into their texts. -/
inductive Warning where
  | unknown (cmd arg : List Byte)
  | withoutAddr (cmd : List Byte)
  | invalidAddr (cmd arg : List Byte)
  | truncatedHwaddr (arg : List Byte)
  | invalidHwaddr (arg : List Byte)
  | unknownCmd (cmd : List Byte)
  deriving DecidableEq

/-- What is called: `inet_aton`, with the address that it may write and whether it accepts, and
`i2c_get_mac_address`. -/
structure Externals where
  inetAton : List Byte → BitVec 32 → Bool × BitVec 32
  i2cGetMacAddress : Hwaddr → Hwaddr

/-- `strcmp(p, s)==0`. -/
abbrev StrEq (p : List Byte) (s : String) : Prop := str 0 p = ascii s

section Exec

variable (ext : Externals)

/-- `sdcard_parse_inet`, with the address in `out` after it. -/
def sdcardParseInet (cmd : List Byte) (arg : Option (List Byte)) (out : BitVec 32) :
    BitVec 32 × Option Warning :=
  match arg with
  | none => (out, some (.withoutAddr (str 0 cmd)))
  | some arg =>
    let r := ext.inetAton (str 0 arg) out
    (r.2, if r.1 then none else some (.invalidAddr (str 0 cmd) (str 0 arg)))

/-- The branch of `dhcp`. -/
def dhcpDirective (conf : NetConfig) (cmd : List Byte) (arg : Option (List Byte)) :
    NetConfig × Option Warning :=
  match arg with
  | none => ({ conf with useStatic := 0 }, none)
  | some arg =>
    if StrEq arg "yes" then ({ conf with useStatic := 0 }, none)
    else if StrEq arg "no" then ({ conf with useStatic := 1 }, none)
    else (conf, some (.unknown (str 0 cmd) (str 0 arg)))

/-- The branch of `hwaddr`. -/
def hwaddrDirective (conf : NetConfig) (arg : Option (List Byte)) : NetConfig × Option Warning :=
  match arg with
  | none => ({ conf with hwaddr := ext.i2cGetMacAddress conf.hwaddr }, none)
  | some arg =>
    if StrEq arg "eeprom" then
      ({ conf with hwaddr := ext.i2cGetMacAddress conf.hwaddr }, none)
    else
      match parse arg with
      | .ok (some hwaddr) => ({ conf with hwaddr := hwaddr }, none)
      | .ok none => (conf, none)
      | .error .truncated => (conf, some (.truncatedHwaddr (str 0 arg)))
      | .error .invalid => (conf, some (.invalidHwaddr (str 0 arg)))

/-- The comparisons of a line. `cmd` and `arg` are the memory from these pointers on. -/
def execDirective (conf : NetConfig) (cmd : List Byte) (arg : Option (List Byte)) :
    NetConfig × Option Warning :=
  if StrEq cmd "dhcp" then dhcpDirective conf cmd arg
  else if StrEq cmd "addr" then
    let r := sdcardParseInet ext cmd arg conf.addr
    ({ conf with addr := r.1, useStatic := 1 }, r.2)
  else if StrEq cmd "mask" then
    let r := sdcardParseInet ext cmd arg conf.mask
    ({ conf with mask := r.1 }, r.2)
  else if StrEq cmd "gw" then
    let r := sdcardParseInet ext cmd arg conf.gw
    ({ conf with gw := r.1 }, r.2)
  else if StrEq cmd "hwaddr" then hwaddrDirective ext conf arg
  else (conf, some (.unknownCmd (str 0 cmd)))

end Exec

/-! ## The loop -/

/-- The configuration, the buffer and what was printed to `stderr`. `directives` are those that the
loop came to, in order. -/
structure NetConfState where
  conf : NetConfig
  lbuf : List Byte
  directives : List Directive
  warnings : List Warning

/-- The end of a line. -/
abbrev newline : Byte := 0x0A

section Loop

variable (ext : Externals)

/-- One turn of the loop: `f_gets` put the characters `line` and a NUL into the buffer. -/
def netconfLine (s : NetConfState) (line : List Byte) : NetConfState :=
  let lbuf := line ++ 0 :: s.lbuf.drop (line.length + 1)
  match tokenise lbuf with
  | none => { s with lbuf := lbuf }
  | some t =>
    let cmd := t.lbuf.drop t.cmd
    let arg := t.arg.map fun i => t.lbuf.drop i
    let r := execDirective ext s.conf cmd arg
    { conf := r.1
      lbuf := t.lbuf
      directives := s.directives ++ [t.directive]
      warnings := s.warnings ++ r.2.toList }

/-- `sdcard_netconf`, where `f_gets` reads from the characters of the file. -/
def sdcardNetconf (fGets : LineReader.Reader newline 63) (s : NetConfState) (file : List Byte) :
    NetConfState :=
  (fGets.readAll file).foldl (netconfLine ext) s

/-- What a directive does. -/
def NetConfState.take (s : NetConfState) (d : Directive) : NetConfState :=
  let r := execDirective ext s.conf d.1 d.2
  { s with
    conf := r.1
    directives := s.directives ++ [d]
    warnings := s.warnings ++ r.2.toList }

end Loop

/-! ## One line -/

section Line

variable (ext : Externals)

theorem execDirective_str (conf : NetConfig) (cmd : List Byte) (arg : Option (List Byte)) :
    execDirective ext conf (str 0 cmd) (arg.map (str 0)) = execDirective ext conf cmd arg := by
  unfold execDirective sdcardParseInet dhcpDirective hwaddrDirective
  cases arg with
  | none => simp only [StrEq, str_str, Option.map_none]
  | some arg => simp only [StrEq, str_str, Option.map_some, ← parse_str]

/-- **A line does what it says.** What an earlier one left in the buffer does not matter. -/
theorem netconfLine_eq (s : NetConfState) (line : List Byte) : ∃ lbuf,
    netconfLine ext s line = { (directive line).elim s (s.take ext) with lbuf := lbuf } := by
  have htok := tokenise_eq (line ++ 0 :: s.lbuf.drop (line.length + 1))
  rw [directive_append_nul] at htok
  unfold netconfLine
  dsimp only
  cases ht : tokenise (line ++ 0 :: s.lbuf.drop (line.length + 1)) with
  | none =>
    rw [ht, Option.map_none] at htok
    rw [← htok]
    exact ⟨_, rfl⟩
  | some t =>
    rw [ht, Option.map_some] at htok
    have hexec :=
      execDirective_str ext s.conf (t.lbuf.drop t.cmd) (t.arg.map fun i => t.lbuf.drop i)
    rw [Option.map_map] at hexec
    dsimp only
    rw [← htok, ← hexec]
    exact ⟨_, rfl⟩

theorem foldl_take_lbuf (s : NetConfState) (lbuf : List Byte) (ds : List Directive) :
    ds.foldl (NetConfState.take ext) { s with lbuf := lbuf } =
      { ds.foldl (NetConfState.take ext) s with lbuf := lbuf } := by
  induction ds generalizing s with
  | nil => rfl
  | cons d ds ih => exact ih (s.take ext d)

theorem foldl_netconfLine (s : NetConfState) (ls : List (List Byte)) : ∃ lbuf,
    ls.foldl (netconfLine ext) s =
      { (ls.filterMap directive).foldl (NetConfState.take ext) s with lbuf := lbuf } := by
  induction ls generalizing s with
  | nil => exact ⟨s.lbuf, rfl⟩
  | cons l ls ih =>
    obtain ⟨lbuf, hline⟩ := netconfLine_eq ext s l
    obtain ⟨lbuf', hrest⟩ := ih { (directive l).elim s (s.take ext) with lbuf := lbuf }
    refine ⟨lbuf', ?_⟩
    rw [List.foldl_cons, hline, hrest, foldl_take_lbuf]
    cases hd : directive l with
    | none => rw [List.filterMap_cons_none hd, Option.elim_none]
    | some d => rw [List.filterMap_cons_some hd, Option.elim_some, List.foldl_cons]

end Line

/-! ## Hardware addresses -/

section HwaddrDirective

variable {ext : Externals} {cmd s : List Byte}

theorem execDirective_hwaddr (conf : NetConfig) (hcmd : StrEq cmd "hwaddr")
    (arg : Option (List Byte)) : execDirective ext conf cmd arg = hwaddrDirective ext conf arg := by
  have hne : ∀ t, ascii "hwaddr" ≠ ascii t → ¬StrEq cmd t := fun t ht h => ht (hcmd.symm.trans h)
  unfold execDirective
  rw [if_neg (hne _ (by decide)), if_neg (hne _ (by decide)), if_neg (hne _ (by decide)),
    if_neg (hne _ (by decide)), if_pos hcmd]

variable (ext) in
theorem hwaddrDirective_of_ok {arg : List Byte} {b : Hwaddr} (conf : NetConfig)
    (hne : ¬StrEq arg "eeprom") (hparse : parse arg = .ok (some b)) :
    hwaddrDirective ext conf (some arg) = ({ conf with hwaddr := b }, none) := by
  unfold hwaddrDirective
  dsimp only
  rw [if_neg hne, hparse]

variable (ext) in
theorem hwaddrDirective_of_error {arg : List Byte} {e : HwaddrError} (conf : NetConfig)
    (hne : ¬StrEq arg "eeprom") (hparse : parse arg = .error e) :
    ∃ w, hwaddrDirective ext conf (some arg) = (conf, some w) := by
  unfold hwaddrDirective
  dsimp only
  rw [if_neg hne, hparse]
  cases e with
  | truncated => exact ⟨_, rfl⟩
  | invalid => exact ⟨_, rfl⟩

/-- **Hardware addresses.** Six pairs of digits are taken, with their values. For any other string
there is a warning. Nothing behind the end of the string is read. -/
theorem hwaddr_iff (conf : NetConfig) (hcmd : StrEq cmd "hwaddr") (hs : 0 ∉ s)
    (hne : s ≠ ascii "eeprom") (tail : List Byte) :
    (∀ b : Hwaddr,
      execDirective ext conf cmd (some (s ++ 0 :: tail)) = ({ conf with hwaddr := b }, none) ↔
        Pairs s b.toList) ∧
      ((¬∃ b : Hwaddr, Pairs s b.toList) →
        ∃ w, execDirective ext conf cmd (some (s ++ 0 :: tail)) = (conf, some w)) ∧
      ∀ k ∈ reads (s ++ 0 :: tail), k ≤ s.length := by
  have hstr : str 0 (s ++ 0 :: tail) = s := str_append hs tail
  have hother : ¬StrEq (s ++ 0 :: tail) "eeprom" := fun h => hne (hstr.symm.trans h)
  have hreads := reads_le (s ++ 0 :: tail)
  have hiff : ∀ b, parse (s ++ 0 :: tail) = .ok (some b) ↔ Pairs s b.toList := by
    intro b
    rw [parse_iff, hstr]
  rw [hstr] at hreads
  rw [execDirective_hwaddr conf hcmd]
  cases hparse : parse (s ++ 0 :: tail) with
  | error e =>
    obtain ⟨w, hw⟩ := hwaddrDirective_of_error ext conf hother hparse
    refine ⟨fun b => ?_, fun _ => ⟨w, hw⟩, hreads⟩
    rw [hw, ← hiff, hparse]
    exact iff_of_false (fun h => by cases congrArg Prod.snd h) (by rintro ⟨⟩)
  | ok r =>
    cases r with
    | none => exact absurd hparse parse_ne
    | some b =>
      have hb := (hiff b).mp hparse
      refine ⟨fun b' => ?_, fun h => absurd ⟨b, hb⟩ h, hreads⟩
      rw [hwaddrDirective_of_ok ext conf hother hparse, ← hiff, hparse]
      simp

/-- Nothing is set, as at the start. -/
def blankConfig : NetConfig := ⟨0, 0, 0, 0, Vector.replicate 6 0⟩

/-- `inet_aton` accepts nothing, and the EEPROM cannot be read. -/
def noExternals : Externals := ⟨fun _ out => (false, out), id⟩

theorem pairs_sample : Pairs (ascii "00:1a:2B:3c:4D:5e") [0x00, 0x1A, 0x2B, 0x3C, 0x4D, 0x5E] := by
  have hascii : ascii "00:1a:2B:3c:4D:5e" = [0x30, 0x30, 0x3A, 0x31, 0x61, 0x3A, 0x32, 0x42, 0x3A,
      0x33, 0x63, 0x3A, 0x34, 0x44, 0x3A, 0x35, 0x65] := by decide
  rw [hascii]
  exact .more (u := 0) (v := 0) rfl rfl (.more (u := 1) (v := 10) rfl rfl
    (.more (u := 2) (v := 11) rfl rfl (.more (u := 3) (v := 12) rfl rfl
      (.more (u := 4) (v := 13) rfl rfl (.last (u := 5) (v := 14) rfl rfl)))))

/-- Digits of either case. -/
theorem sample_taken : execDirective noExternals blankConfig (ascii "hwaddr")
      (some (ascii "00:1a:2B:3c:4D:5e" ++ 0 :: [0x20])) =
    ({ blankConfig with hwaddr := #v[0x00, 0x1A, 0x2B, 0x3C, 0x4D, 0x5E] }, none) :=
  ((hwaddr_iff blankConfig (by decide) (by decide) (by decide) [0x20]).1 _).mpr pairs_sample

end HwaddrDirective

/-! ## Lines with a warning -/

section Rejected

variable {ext : Externals} {cmd : List Byte} {arg : Option (List Byte)}

/-- There is no address, or one that is not accepted. -/
def Externals.Rejects (ext : Externals) (arg : Option (List Byte)) (out : BitVec 32) : Prop :=
  ∀ a ∈ arg, (ext.inetAton a out).1 = false

/-- The line turns static addresses on with an address that is not accepted. -/
def TurnsStatic (ext : Externals) (conf : NetConfig) (line : List Byte) : Prop :=
  ∃ arg, directive line = some (ascii "addr", arg) ∧ ext.Rejects arg conf.addr ∧ conf.useStatic ≠ 1

/-- `inet_aton` leaves the address alone if it fails. -/
def Externals.KeepsAddr (ext : Externals) : Prop :=
  ∀ arg out, (ext.inetAton arg out).1 = false → (ext.inetAton arg out).2 = out

theorem parseInet_warns_iff (cmd : List Byte) (arg : Option (List Byte)) (out : BitVec 32) :
    (sdcardParseInet ext cmd arg out).2 ≠ none ↔ ext.Rejects (arg.map (str 0)) out := by
  unfold sdcardParseInet Externals.Rejects
  cases arg with
  | none => simp
  | some arg => simp

theorem parseInet_keeps (hkeep : ext.KeepsAddr) {out : BitVec 32}
    (h : (sdcardParseInet ext cmd arg out).2 ≠ none) :
    (sdcardParseInet ext cmd arg out).1 = out := by
  have hrejects := (parseInet_warns_iff cmd arg out).mp h
  cases arg with
  | none => rfl
  | some arg => exact hkeep _ _ (hrejects _ rfl)

theorem dhcpDirective_keeps {conf : NetConfig} (h : (dhcpDirective conf cmd arg).2 ≠ none) :
    (dhcpDirective conf cmd arg).1 = conf := by
  unfold dhcpDirective at h ⊢
  split at h
  · exact absurd rfl h
  · split_ifs at h ⊢ <;> first | rfl | exact absurd rfl h

theorem hwaddrDirective_keeps {conf : NetConfig} (h : (hwaddrDirective ext conf arg).2 ≠ none) :
    (hwaddrDirective ext conf arg).1 = conf := by
  unfold hwaddrDirective at h ⊢
  split at h
  · exact absurd rfl h
  · split_ifs at h ⊢
    · exact absurd rfl h
    · split at h <;> first | rfl | exact absurd rfl h

theorem execDirective_keeps (hkeep : ext.KeepsAddr) {conf : NetConfig} (hcmd : ¬StrEq cmd "addr")
    (h : (execDirective ext conf cmd arg).2 ≠ none) :
    (execDirective ext conf cmd arg).1 = conf := by
  unfold execDirective at h ⊢
  rw [if_neg hcmd] at h ⊢
  split_ifs at h ⊢
  · exact dhcpDirective_keeps h
  · dsimp only at h ⊢
    rw [parseInet_keeps hkeep h]
  · dsimp only at h ⊢
    rw [parseInet_keeps hkeep h]
  · exact hwaddrDirective_keeps h
  · rfl

theorem execDirective_addr (conf : NetConfig) (hcmd : StrEq cmd "addr") :
    execDirective ext conf cmd arg =
      ({ conf with addr := (sdcardParseInet ext cmd arg conf.addr).1, useStatic := 1 },
        (sdcardParseInet ext cmd arg conf.addr).2) := by
  have hne : ¬StrEq cmd "dhcp" := fun h => absurd (hcmd.symm.trans h) (by decide)
  unfold execDirective
  rw [if_neg hne, if_pos hcmd]

theorem take_warns_iff (s : NetConfState) (d : Directive) :
    (s.take ext d).warnings ≠ s.warnings ↔ (execDirective ext s.conf d.1 d.2).2 ≠ none := by
  unfold NetConfState.take
  cases hwarn : (execDirective ext s.conf d.1 d.2).2 with
  | none => simp [hwarn]
  | some w => simp [hwarn]

theorem execDirective_addr_keeps_iff (hkeep : ext.KeepsAddr) {conf : NetConfig}
    (hcmd : StrEq cmd "addr") (h : (execDirective ext conf cmd arg).2 ≠ none) :
    (execDirective ext conf cmd arg).1 = conf ↔ conf.useStatic = 1 := by
  rw [execDirective_addr conf hcmd] at h ⊢
  dsimp only at h ⊢
  rw [parseInet_keeps hkeep h]
  constructor
  · intro heq
    exact (congrArg NetConfig.useStatic heq).symm
  · intro hstatic
    rw [← hstatic]

/-- **Lines with a warning.** They change nothing, unless they are an `addr` that turns static
addresses on. -/
theorem rejected_iff (hkeep : ext.KeepsAddr) (s : NetConfState) (line : List Byte) :
    ((netconfLine ext s line).warnings ≠ s.warnings →
        (netconfLine ext s line).conf = s.conf) ↔
      ¬TurnsStatic ext s.conf line := by
  obtain ⟨lbuf, hline⟩ := netconfLine_eq ext s line
  rw [hline]
  cases hd : directive line with
  | none =>
    refine iff_of_true (fun _ => rfl) ?_
    rintro ⟨_, h, -⟩
    cases hd.symm.trans h
  | some d =>
    have hstr := str_directive hd
    obtain ⟨cmd, arg⟩ := d
    obtain ⟨hcmd, harg⟩ := Prod.mk.inj hstr
    rw [Option.elim_some]
    change ((s.take ext (cmd, arg)).warnings ≠ s.warnings → _) ↔ _
    rw [take_warns_iff]
    change (_ → (execDirective ext s.conf cmd arg).1 = s.conf) ↔ _
    by_cases haddr : StrEq cmd "addr"
    · have hwarns : (execDirective ext s.conf cmd arg).2 ≠ none ↔ ext.Rejects arg s.conf.addr := by
        rw [execDirective_addr _ haddr]
        dsimp only
        rw [parseInet_warns_iff, harg]
      constructor
      · rintro hkept ⟨arg', hd', hrejects, hstatic⟩
        obtain ⟨-, rfl⟩ := Prod.mk.inj (Option.some.inj (hd.symm.trans hd'))
        have hwarn := hwarns.mpr hrejects
        exact hstatic ((execDirective_addr_keeps_iff hkeep haddr hwarn).mp (hkept hwarn))
      · intro hturns hwarn
        rw [execDirective_addr_keeps_iff hkeep haddr hwarn]
        by_contra hstatic
        refine hturns ⟨arg, ?_, hwarns.mp hwarn, hstatic⟩
        rw [hd, ← haddr, hcmd]
    · refine iff_of_true (execDirective_keeps hkeep haddr) ?_
      rintro ⟨_, hd', -⟩
      obtain ⟨rfl, -⟩ := Prod.mk.inj (Option.some.inj (hd.symm.trans hd'))
      exact haddr (by decide)

/-- The state in front of the first line. -/
def startState : NetConfState := ⟨blankConfig, List.replicate 64 0, [], []⟩

/-- A `mask` that is not accepted changes nothing. -/
theorem mask_rejected :
    (netconfLine noExternals startState (ascii "mask none\n")).warnings ≠ [] ∧
      (netconfLine noExternals startState (ascii "mask none\n")).conf = blankConfig := by
  have hturns : ¬TurnsStatic noExternals startState.conf (ascii "mask none\n") := by
    rintro ⟨_, h, -⟩
    have hcmd : (directive (ascii "mask none\n")).map Prod.fst = some (ascii "mask") := by decide
    have hne : ascii "addr" ≠ ascii "mask" := by decide
    rw [h] at hcmd
    exact hne (Option.some.inj hcmd)
  have hwarns : (netconfLine noExternals startState (ascii "mask none\n")).warnings ≠ [] := by
    decide
  exact ⟨hwarns, (rejected_iff (fun _ _ _ => rfl) startState _).mpr hturns hwarns⟩

/-- An `addr` without an address turns static addresses on. -/
theorem bare_addr_turns_static : noExternals.KeepsAddr ∧
    (netconfLine noExternals startState (ascii "addr\n")).warnings ≠ startState.warnings ∧
      (netconfLine noExternals startState (ascii "addr\n")).conf ≠ startState.conf :=
  ⟨fun _ _ _ => rfl, by decide, by decide⟩

end Rejected

end Psc.Net
