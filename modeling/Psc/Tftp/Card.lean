import Psc.Tftp.Download
import Psc.Tftp.Upload

/-!
# Files on the card

`tftp_handler.c`: the callbacks of the server, on FatFs, with one `FIL`. A file that is written is
opened with `FA_OPEN_ALWAYS`, so that it is written over, but not cut.

`uploaded_file`: after an upload the file on the card is what the peer has sent, and behind it what
the old file was longer by. `downloaded_file`: what a peer receives is the file on the card.
-/

namespace Psc.Tftp

open Net Transition StopAndWait

variable {φ : Type*}

/-! ## Writing over -/

/-- `new` over the old bytes from `pos` on. -/
def splice {α : Type*} (old : List α) (pos : ℕ) (new : List α) : List α :=
  old.take pos ++ new ++ old.drop (pos + new.length)

section Splice

variable {α : Type*} {old new new' : List α} {pos : ℕ}

@[simp] theorem splice_nil : splice old pos [] = old := by
  simp [splice]

theorem length_splice (h : pos ≤ old.length) : pos + new.length ≤ (splice old pos new).length := by
  rw [splice, List.length_append, List.length_append, List.length_take_of_le h]
  exact Nat.le_add_right ..

theorem splice_splice (h : pos ≤ old.length) :
    splice (splice old pos new) (pos + new.length) new' = splice old pos (new ++ new') := by
  have hlen : (old.take pos ++ new).length = pos + new.length := by
    rw [List.length_append, List.length_take_of_le h]
  have hdrop : (old.take pos ++ new ++ old.drop (pos + new.length)).drop
      (pos + new.length + new'.length) = old.drop (pos + new.length + new'.length) := by
    rw [← hlen, List.drop_length_add_append, hlen, List.drop_drop]
  unfold splice
  rw [List.take_left' hlen, hdrop, List.length_append, Nat.add_assoc,
    List.append_assoc (old.take pos)]

end Splice

/-! ## The callbacks -/

/-- FatFs, for the one `FIL`. `open` gets the name, and `true` for `FA_OPEN_ALWAYS|FA_WRITE`,
`false` for `FA_OPEN_EXISTING|FA_READ`; `open` and `close` say whether the result is `FR_OK`, and of
`read` and `write` there is nothing unless it is. -/
structure FatFs (φ : Type*) where
  fOpen : List Byte → Bool → φ → Bool × φ
  fClose : φ → Bool × φ
  fRead : ℕ → φ → Option (List Byte) × φ
  fWrite : List Byte → φ → Option ℕ × φ

namespace FatFs

variable (fat : FatFs φ)

/-- `tftp_sdcard_open`, which returns the address of the `FIL`. -/
def tftpSdcardOpen (fname mode : List Byte) (write : Bool) (fs : φ) : Option Unit × φ :=
  if mode ≠ chars "octet" then (none, fs)
  else
    let res := fat.fOpen fname write fs
    (if res.1 then some () else none, res.2)

/-- `tftp_sdcard_close`, which only prints a failure. -/
def tftpSdcardClose (fs : φ) : φ := (fat.fClose fs).2

/-- `tftp_sdcard_read`. -/
def tftpSdcardRead (bytes : ℕ) (fs : φ) : Option (List Byte) × φ := fat.fRead bytes fs

/-- `tftp_sdcard_write`. `tot_len` is the length of a buffer and of all behind it. -/
def tftpSdcardWrite : List (List Byte) → φ → Bool × φ
  | [], fs => (true, fs)
  | p :: next, fs =>
    if p.length + next.flatten.length = 0 then (true, fs)
    else if p.length = 0 then tftpSdcardWrite next fs
    else
      match fat.fWrite p fs with
      | (none, fs) => (false, fs)
      | (some n, fs) => if n ≠ p.length then (false, fs) else tftpSdcardWrite next fs

/-- `ctxt`. -/
def ctxt (lwip : Lwip) : Context Unit φ where
  toLwip := lwip
  openFile := fat.tftpSdcardOpen
  closeFile _ := fat.tftpSdcardClose
  readFile _ := fat.tftpSdcardRead
  writeFile _ := fat.tftpSdcardWrite

/-- What FatFs says of itself. `contents` are those of a file, none for one that is not there; the
`FIL` stands for the file `name`, at `pos`. Where it fails, only `open` leaves all files as they
are. -/
structure View where
  contents : φ → List Byte → List Byte
  name : φ → List Byte
  pos : φ → ℕ
  opened : ∀ f write fs fs', fat.fOpen f write fs = (true, fs') →
    name fs' = f ∧ pos fs' = 0 ∧ contents fs' = contents fs
  notOpened : ∀ f write fs fs', fat.fOpen f write fs = (false, fs') → contents fs' = contents fs
  closed : ∀ fs fs', fat.fClose fs = (true, fs') → contents fs' = contents fs
  wrote : ∀ x fs fs', fat.fWrite x fs = (some x.length, fs') →
    pos fs ≤ (contents fs (name fs)).length →
      name fs' = name fs ∧ pos fs' = pos fs + x.length ∧
        contents fs' (name fs) = splice (contents fs (name fs)) (pos fs) x
  read : ∀ n fs data fs', fat.fRead n fs = (some data, fs') →
    data = ((contents fs (name fs)).drop (pos fs)).take n ∧
      name fs' = name fs ∧ pos fs' = pos fs + data.length ∧ contents fs' = contents fs

end FatFs

variable {fat : FatFs φ} {lwip : Lwip} {v : fat.View} {fs fs' : φ}

/-- A datagram that is written in full. -/
theorem FatFs.View.wrote_chain (v : fat.View) {bufs : List (List Byte)}
    (h : fat.tftpSdcardWrite bufs fs = (true, fs'))
    (hpos : v.pos fs ≤ (v.contents fs (v.name fs)).length) :
    v.name fs' = v.name fs ∧ v.pos fs' = v.pos fs + bufs.flatten.length ∧
      v.contents fs' (v.name fs) = splice (v.contents fs (v.name fs)) (v.pos fs) bufs.flatten := by
  induction bufs generalizing fs with
  | nil =>
    obtain rfl : fs = fs' := congrArg Prod.snd h
    exact ⟨rfl, rfl, splice_nil.symm⟩
  | cons p next ih =>
    unfold FatFs.tftpSdcardWrite at h
    rw [List.flatten_cons]
    by_cases htot : p.length + next.flatten.length = 0
    · rw [if_pos htot] at h
      obtain rfl : fs = fs' := congrArg Prod.snd h
      have hp : p ++ next.flatten = [] := List.length_eq_zero_iff.mp (by simpa using htot)
      rw [hp]
      exact ⟨rfl, rfl, splice_nil.symm⟩
    · rw [if_neg htot] at h
      by_cases hlen : p.length = 0
      · rw [if_pos hlen] at h
        rw [List.length_eq_zero_iff.mp hlen]
        exact ih h hpos
      · rw [if_neg hlen] at h
        rcases hw : fat.fWrite p fs with ⟨_ | n, fs₁⟩
        · simp [hw] at h
        · simp only [hw] at h
          by_cases hn : n = p.length
          · rw [if_neg (not_not.mpr hn)] at h
            subst hn
            obtain ⟨hname, hpos₁, hcontents⟩ := v.wrote p fs fs₁ hw hpos
            have hle : v.pos fs₁ ≤ (v.contents fs₁ (v.name fs₁)).length := by
              rw [hname, hpos₁, hcontents]
              exact length_splice hpos
            obtain ⟨hname', hpos', hcontents'⟩ := ih h hle
            refine ⟨hname'.trans hname, ?_, ?_⟩
            · rw [hpos', hpos₁, List.length_append, Nat.add_assoc]
            · rw [← hname, hcontents', hname, hcontents, hpos₁, splice_splice hpos]
          · rw [if_pos hn] at h
            cases h

theorem FatFs.View.readsOn (v : fat.View) :
    ReadsOn (fat.ctxt lwip) fun _ fs => (v.contents fs (v.name fs)).drop (v.pos fs) where
  read _ fs data fs' h := by
    obtain ⟨hdata, hname, hpos, hcontents⟩ := v.read 512 fs data fs' h
    refine ⟨hdata, ?_⟩
    rw [hname, hpos, hcontents, hdata, ← List.drop_drop, List.length_take]
    obtain hle | hlt := Nat.le_total 512 ((v.contents fs (v.name fs)).drop (v.pos fs)).length
    · rw [Nat.min_eq_left hle]
    · rw [Nat.min_eq_right hlt, List.drop_eq_nil_of_le le_rfl, List.drop_eq_nil_of_le hlt]

/-! ## What is on the card -/

/-- The file of an upload is what has been written, and behind it what the old one was longer by. -/
def Stored (v : fat.View) (S : Session Unit φ) (fs : φ) : Prop :=
  v.contents fs (v.name S.start) = splice (v.contents S.start (v.name S.start)) 0 S.written.flatten

/-- The `FIL` stands behind what has been written. -/
def Behind (v : fat.View) (S : Session Unit φ) (fs : φ) : Prop :=
  v.name fs = v.name S.start ∧ v.pos fs = S.written.flatten.length ∧ Stored v S fs

/-- While an upload is in progress, its blocks are full; after a short one the file is stored. -/
structure Storing (v : fat.View) (h : Option Unit) (fs : φ) (o : Option (Session Unit φ)) :
    Prop where
  behind : ∀ S, h.isSome → o = some S → S.write = true →
    Behind v S fs ∧ ∀ x ∈ S.written, 512 ≤ x.length
  stored : ∀ S, o = some S → S.write = true → (∃ x ∈ S.written, x.length < 512) → Stored v S fs

section Storing

variable {h : Option Unit} {o : Option (Session Unit φ)} {S : Session Unit φ} {q : Endpoint}

theorem Behind.wrote {bufs : List (List Byte)} (hS : Behind v S fs)
    (h : fat.tftpSdcardWrite bufs fs = (true, fs')) : Behind v (S.addWritten bufs.flatten) fs' := by
  obtain ⟨hname, hpos, hstored⟩ := hS
  have hflat : (S.written ++ [bufs.flatten]).flatten = S.written.flatten ++ bufs.flatten := by
    rw [List.flatten_append, List.flatten_singleton]
  have hcontents : v.contents fs (v.name fs) =
      splice (v.contents S.start (v.name S.start)) 0 S.written.flatten := by
    rw [hname]
    exact hstored
  have hle : v.pos fs ≤ (v.contents fs (v.name fs)).length := by
    rw [hpos, hcontents]
    exact (Nat.zero_add _).symm.le.trans (length_splice (Nat.zero_le _))
  obtain ⟨hname', hpos', hcontents'⟩ := v.wrote_chain h hle
  refine ⟨hname'.trans hname, ?_, ?_⟩
  · show v.pos fs' = (S.written ++ [bufs.flatten]).flatten.length
    rw [hflat, hpos', hpos, List.length_append]
  · show v.contents fs' (v.name S.start) = splice _ 0 (S.written ++ [bufs.flatten]).flatten
    rw [hflat, ← splice_splice (Nat.zero_le _), ← hname, hcontents', hcontents, hpos, Nat.zero_add]
    rfl

theorem Storing.map (hs : Storing v h fs o) {f : Session Unit φ → Session Unit φ}
    (hf : ∀ S, (f S).start = S.start ∧ (f S).written = S.written ∧ (f S).write = S.write) :
    Storing v h fs (o.map f) := by
  have hstored : ∀ S, Stored v (f S) fs ↔ Stored v S fs := by
    intro S
    unfold Stored
    rw [(hf S).1, (hf S).2.1]
  refine ⟨?_, ?_⟩
  · intro S' hh hS' hw
    obtain ⟨S, hS, rfl⟩ := Option.map_eq_some_iff.mp hS'
    obtain ⟨⟨hname, hpos, hst⟩, hfull⟩ := hs.behind S hh hS ((hf S).2.2.symm.trans hw)
    rw [(hf S).2.1]
    refine ⟨⟨?_, ?_, (hstored S).mpr hst⟩, hfull⟩
    · rw [(hf S).1, hname]
    · rw [(hf S).2.1, hpos]
  · intro S' hS' hw hshort
    obtain ⟨S, hS, rfl⟩ := Option.map_eq_some_iff.mp hS'
    rw [(hf S).2.1] at hshort
    exact (hstored S).mpr (hs.stored S hS ((hf S).2.2.symm.trans hw) hshort)

theorem Storing.of_download (ho : ∀ S, o = some S → S.write = false) : Storing v h fs o where
  behind S _ hS hw := by simp [ho S hS] at hw
  stored S hS hw := by simp [ho S hS] at hw

theorem Storing.begin (u : Unit) (hpos : v.pos fs = 0) :
    Storing v (some u) fs (some ⟨q, true, u, fs, [], [], []⟩) where
  behind := by
    rintro _ - ⟨⟩ -
    exact ⟨⟨rfl, hpos, splice_nil.symm⟩, fun x hx => absurd hx List.not_mem_nil⟩
  stored := by
    rintro _ ⟨⟩ - -
    exact splice_nil.symm

/-- A block could not be written. The ones before it were full. -/
theorem Storing.failed {u : Unit} (hs : Storing v (some u) fs o) : Storing v none fs' o where
  behind S hh := by cases hh
  stored S hS hw hshort := by
    obtain ⟨x, hx, hlt⟩ := hshort
    exact absurd ((hs.behind S rfl hS hw).2 x hx) (not_le.mpr hlt)

theorem Storing.finished (hS : Stored v S fs) (hc : v.contents fs' = v.contents fs) :
    Storing v none fs' (some S) where
  behind S hh := by cases hh
  stored := by
    rintro _ ⟨⟩ - -
    unfold Stored
    rw [hc]
    exact hS

theorem Storing.closed (hs : Storing v h fs o) (hc : v.contents fs' = v.contents fs) :
    Storing v none fs' o where
  behind S hh := by cases hh
  stored S hS hw hshort := by
    unfold Stored
    rw [hc]
    exact hs.stored S hS hw hshort

end Storing

section Step

variable {mem : Site → Bool} {s s' : Server Unit φ} {p : Pbuf} {sender : Endpoint}

def Server.Storing (v : fat.View) (s : Server Unit φ) : Prop :=
  Tftp.Storing v s.handle s.fs (session s.log)

theorem Server.Storing.sendPacket (hs : s.Storing v) (site : Site) (dest : Endpoint)
    (packet : List Byte) : (s.sendPacket mem site dest packet).Storing v := by
  unfold Server.Storing
  rw [session_sendPacket]
  exact Storing.map hs fun _ => ⟨rfl, rfl, rfl⟩

theorem contents_closeHandle (v : fat.View) (hclose : ∀ fs, (fat.fClose fs).1 = true)
    (s : Server Unit φ) : v.contents (s.closeHandle (fat.ctxt lwip)).fs = v.contents s.fs := by
  show v.contents (s.handle.elim s.fs fun _ => (fat.fClose s.fs).2) = v.contents s.fs
  cases s.handle with
  | none => rfl
  | some h => exact v.closed s.fs _ (Prod.ext (hclose s.fs) rfl)

theorem Server.Storing.closeHandle (hclose : ∀ fs, (fat.fClose fs).1 = true) (hs : s.Storing v) :
    (s.closeHandle (fat.ctxt lwip)).Storing v := by
  unfold Server.Storing
  rw [session_closeHandle]
  exact Storing.closed hs (contents_closeHandle v hclose s)

theorem Server.Storing.resendData (hs : s.Storing v) : (s.resendData mem).Storing v := by
  cases hd : s.lastData with
  | none =>
    unfold Server.resendData
    rw [hd]
    exact hs
  | some d =>
    rw [session_resendData s hd]
    exact hs.sendPacket ..

theorem openFile_cases {filename mode : List Byte} {write : Bool} {r : Option Unit}
    (v : fat.View) (h : (fat.ctxt lwip).openFile filename mode write fs = (r, fs')) :
    v.contents fs' = v.contents fs ∧ (r.isSome → v.pos fs' = 0) := by
  change fat.tftpSdcardOpen filename mode write fs = (r, fs') at h
  unfold FatFs.tftpSdcardOpen at h
  split_ifs at h
  · obtain ⟨rfl, rfl⟩ := Prod.mk.inj h
    exact ⟨rfl, fun hr => by cases hr⟩
  · rcases ho : fat.fOpen filename write fs with ⟨_ | _, fs₁⟩
    · simp only [ho] at h
      obtain ⟨rfl, rfl⟩ := Prod.mk.inj h
      exact ⟨v.notOpened _ _ _ _ ho, fun hr => by cases hr⟩
    · simp only [ho] at h
      obtain ⟨rfl, rfl⟩ := Prod.mk.inj h
      obtain ⟨-, hpos, hcontents⟩ := v.opened _ _ _ _ ho
      exact ⟨hcontents, fun _ => hpos⟩

theorem storing_wrote {u : Unit} (ht : s.Tracks) (hs : s.Storing v) (hh : s.handle = some u)
    (hw : s.modeWrite = true)
    (ho : (fat.ctxt lwip).writeFile u (p.payload :: p.next) s.fs = (true, fs)) :
    ∃ S : Session Unit φ, session (s.wrote u p.bytes true fs).log = some (S.addWritten p.bytes) ∧
      Behind v (S.addWritten p.bytes) fs ∧ ∀ x ∈ S.written, 512 ≤ x.length := by
  obtain ⟨S, hS, -, hwrite, -⟩ := ht.begun _ (cursor_eq hh)
  obtain ⟨hbehind, hfull⟩ := hs.behind S (by simp [hh]) hS (hwrite.trans hw)
  refine ⟨S, ?_, hbehind.wrote ho, hfull⟩
  rw [session_wrote_true, hS]
  rfl

theorem storing_move (hclose : ∀ fs, (fat.fClose fs).1 = true) (ht : s.Tracks) (hs : s.Storing v)
    (h : Move (fat.ctxt lwip) mem s p sender s') : s'.Storing v := by
  cases h with
  | error code str => exact hs.sendPacket ..
  | malformed str hnone hp => exact Server.Storing.sendPacket (s := { s with timers := _ }) hs ..
  | notOpened write filename mode fs hnone hp ho =>
    refine Server.Storing.sendPacket ?_ ..
    unfold Server.Storing
    rw [session_notBegun]
    exact Storing.closed hs (openFile_cases v ho).1
  | upload filename mode h fs hnone hop hp ho =>
    refine Server.Storing.sendPacket ?_ ..
    unfold Server.Storing
    rw [session_begun]
    exact .begin h ((openFile_cases v ho).2 rfl)
  | download filename mode h fs hnone hop hp ho =>
    refine .of_download (write_sendData _ ?_)
    rw [session_begun]
    rintro S ⟨⟩
    rfl
  | stored h fs hh hw hop hk hlen ho =>
    obtain ⟨S, hsession, hbehind, hfull⟩ := storing_wrote ht hs hh hw ho
    have hwrote : (s.wrote h ((fat.ctxt lwip).removeHeader p 4).bytes true fs).Storing v := by
      unfold Server.Storing
      rw [hsession]
      refine ⟨?_, ?_⟩
      · rintro _ - ⟨⟩ -
        refine ⟨hbehind, ?_⟩
        intro x hx
        obtain hx | hx := List.mem_append.mp hx
        · exact hfull x hx
        · exact List.mem_singleton.mp hx ▸ hlen
      · rintro _ ⟨⟩ - -
        exact hbehind.2.2
    exact hwrote.sendPacket ..
  | storedLast h fs hh hw hop hk hlen ho =>
    obtain ⟨S, hsession, hbehind, -⟩ := storing_wrote ht hs hh hw ho
    unfold Server.Storing
    rw [session_closeHandle, Server.sendAck, session_sendPacket, hsession]
    refine Storing.map (.finished hbehind.2.2 ?_) fun _ => ⟨rfl, rfl, rfl⟩
    exact contents_closeHandle v hclose
      ((s.wrote h ((fat.ctxt lwip).removeHeader p 4).bytes true fs).sendAck ..)
  | failed h fs s' hh hw hop hk ho hc =>
    have herror : s'.Storing v := by
      rw [hc]
      unfold Server.Storing
      rw [session_closeHandle, Server.sendError, session_sendPacket, session_wrote_false]
      unfold Server.Storing at hs
      rw [hh] at hs
      exact hs.failed.map fun _ => ⟨rfl, rfl, rfl⟩
    split_ifs
    · exact herror.closeHandle hclose
    · exact herror
  | repeated h hh hw hop hk => exact hs.sendPacket ..
  | advanced h hh hw hop hk hd =>
    obtain ⟨S, hS, -, hwrite, -⟩ := ht.begun _ (cursor_eq hh)
    refine .of_download (write_sendData s.next ?_)
    intro S' hS'
    obtain rfl := Option.some.inj (hS.symm.trans hS')
    exact hwrite.trans hw
  | finished h d hh hw hop hk hd hlen => exact hs.closeHandle hclose

theorem storing_step {a : Act} (hclose : ∀ fs, (fat.fClose fs).1 = true) (ht : s.Tracks)
    (hs : s.Storing v) (h : step (fat.ctxt lwip) s a = some s') : s'.Storing v := by
  cases a with
  | recv p sender mem =>
    obtain rfl := Option.some.inj h
    obtain ⟨-, heq⟩ | ⟨-, s', hmove, heq⟩ := recv_cases (fat.ctxt lwip) mem s p sender
    · rw [heq]
      unfold Server.Storing
      rw [session_push_freed]
      refine Server.Storing.sendPacket (s := s.push [.taken .datagram]) ?_ ..
      unfold Server.Storing
      rw [session_push_taken]
      exact hs
    · rw [heq]
      unfold Server.Storing
      rw [session_push_freed]
      refine storing_move (s := s.seen) hclose ?_ ?_ hmove
      · unfold Server.Tracks
        rw [session_seen]
        exact ht
      · unfold Server.Storing
        rw [session_seen]
        exact hs
  | tmr mem =>
    obtain ⟨-, rfl⟩ : 0 < s.timers ∧ s.tmr (fat.ctxt lwip) mem = s' := by
      simpa [step] using h
    obtain ⟨-, heq⟩ | ⟨u, -, ⟨-, heq⟩ | ⟨-, -, -, heq⟩ | ⟨-, -, heq⟩⟩ :=
      tmr_cases (fat.ctxt lwip) mem s
    · rw [heq]
      exact hs
    · rw [heq]
      exact hs
    · rw [heq]
      exact Server.Storing.resendData (s := s.ticked) hs
    · rw [heq]
      exact Server.Storing.closeHandle (s := s.ticked) hclose hs

end Step

/-- **The file that has been uploaded.** When a peer has its last block acknowledged, the file on
the card begins with what it has sent. What the old file was longer by is still there. -/
theorem uploaded_file (fat : FatFs φ) (lwip : Lwip) (v : fat.View)
    (hclose : ∀ fs, (fat.fClose fs).1 = true) (fs : φ) (file : Endpoint → List Byte)
    {s : Server Unit φ}
    (h : Reach (step (fat.ctxt lwip)) (Sends file) (· = Server.init fs) s) {S : Session Unit φ}
    (hS : session s.log = some S) (hw : S.write = true)
    (hlen : (file S.peer).length < 512 * 65535) {q : Endpoint}
    (hq : (q, ackPacket (number 16 ((file S.peer).length / 512 + 1))) ∈ S.sent) :
    v.contents s.fs (v.name S.start) =
      file S.peer ++ (v.contents S.start (v.name S.start)).drop (file S.peer).length := by
  have hinv : s.Tracks ∧ s.Storing v := by
    refine h.invariant (I := fun s => s.Tracks ∧ s.Storing v) ?_ ?_
    · rintro _ rfl
      exact ⟨.closed _, .of_download (by rintro S ⟨⟩)⟩
    · intro s a s' hs _ hstep
      exact ⟨tracks_step hs.1 hstep, storing_step hclose hs.1 hs.2 hstep⟩
  have hN := length_written_of_acked h hS hw hlen hq
  have hlast : block 512 (file S.peer) ((file S.peer).length / 512 + 1) ∈ S.written := by
    rw [(uploading_of_reach h).blocks S hS hw, hN]
    exact mem_firstBlocks.mpr ⟨_, Nat.lt_succ_self _, rfl⟩
  have hstored : Stored v S s.fs := by
    refine hinv.2.stored S hS hw ⟨_, hlast, ?_⟩
    rw [length_block_lt_iff (by decide)]
    omega
  rw [hstored, flatten_written h hS hw hN, splice, List.take_zero, List.nil_append, Nat.zero_add]

/-- **The file that is downloaded.** Whatever data packets of a transfer reach the peer, in any
order and any number of times: taking blocks in order from them gives a front of the file on the
card as it was opened, and all of it once there is a short one. -/
theorem downloaded_file (fat : FatFs φ) (lwip : Lwip) (v : fat.View) (fs : φ) {s : Server Unit φ}
    (h : Reach (step (fat.ctxt lwip)) Acknowledges (· = Server.init fs) s) {S : Session Unit φ}
    (hS : session s.log = some S) (hw : S.write = false) (hlen : S.read.length < 65536)
    {ps : List (BitVec 16 × List Byte)} (hps : ∀ p ∈ ps, ∃ q, (q, dataPacket p.1 p.2) ∈ S.sent) :
    (ps.foldl receive []).flatten <+: v.contents S.start (v.name S.start) ∧
      ∀ x ∈ ps.foldl receive [], x.length < 512 →
        (ps.foldl receive []).flatten = v.contents S.start (v.name S.start) := by
  obtain ⟨k, -, hfold, hall⟩ := download_session (fat.ctxt lwip) _ v.readsOn fs h hS hw hlen hps
  have hstarted : Started (fun fs => v.pos fs = 0) (session s.log) := by
    refine h.invariant (I := fun s => Started (fun fs => v.pos fs = 0) (session s.log)) ?_ ?_
    · rintro _ rfl S ⟨⟩
    · intro s a s' hs _ hstep
      exact started_step (fun f m w fs u fs' ho => (openFile_cases v ho).2 rfl) hs hstep
  have hstart : v.pos S.start = 0 := hstarted S hS
  rw [hstart, List.drop_zero] at hfold hall
  refine ⟨?_, hall⟩
  rw [hfold, flatten_firstBlocks]
  exact List.take_prefix ..

/-- A card that never fails: the files, and the name of and the place in the open one. -/
structure Disk where
  contents : List Byte → List Byte
  name : List Byte
  pos : ℕ

def disk : FatFs Disk where
  fOpen f _ fs := (true, ⟨fs.contents, f, 0⟩)
  fClose fs := (true, fs)
  fRead n fs := (some (((fs.contents fs.name).drop fs.pos).take n), ⟨fs.contents, fs.name,
    fs.pos + (((fs.contents fs.name).drop fs.pos).take n).length⟩)
  fWrite x fs := (some x.length, ⟨Function.update fs.contents fs.name
    (splice (fs.contents fs.name) fs.pos x), fs.name, fs.pos + x.length⟩)

def diskCtxt : Context Unit Disk := disk.ctxt .documented

def diskView : disk.View where
  contents := Disk.contents
  name := Disk.name
  pos := Disk.pos
  opened := by
    rintro f _ fs _ ⟨⟩
    exact ⟨rfl, rfl, rfl⟩
  notOpened := by rintro f _ fs _ ⟨⟩
  closed := by
    rintro fs _ ⟨⟩
    rfl
  wrote := by
    rintro x fs _ ⟨⟩ _
    exact ⟨rfl, rfl, Function.update_self ..⟩
  read := by
    rintro n fs _ _ ⟨⟩
    exact ⟨rfl, rfl, rfl, rfl⟩

/-- Every file is five bytes long. -/
def fives : Disk := ⟨fun _ => [5, 5, 5, 5, 5], [], 0⟩

/-- The server after three bytes have been written. -/
def overwritten : Server Unit Disk :=
  ((Server.init fives).recv diskCtxt (fun _ => true) writeRequest client).recv diskCtxt
    (fun _ => true) threeBytes client

theorem reach_overwritten :
    Reach (step diskCtxt) (Sends fun _ => [1, 2, 3]) (· = Server.init fives) overwritten := by
  refine .next (.recv threeBytes client fun _ => true)
    (.next (.recv writeRequest client fun _ => true) (.start rfl) (by rintro ⟨⟩) rfl) ?_ rfl
  intro _ _ _ _
  refine ⟨1, le_rfl, rfl, rfl, ?_⟩
  rintro _ ⟨⟩
  decide

theorem three_bytes_of_five : ∃ S, session overwritten.log = some S ∧
    overwritten.fs.contents S.start.name = [1, 2, 3, 5, 5] :=
  ⟨_, rfl, uploaded_file disk .documented diskView (fun _ => rfl) fives (fun _ => [1, 2, 3])
    reach_overwritten rfl rfl (by decide) (q := client) (by decide)⟩

/-- Every file has two blocks. -/
def longer : Disk := ⟨fun _ => twoBlocks, [], 0⟩

def firstAck : Pbuf := datagram (ackPacket 1) (by decide)

/-- The server after the request, and after the first block has been acknowledged. -/
def offeredOne : Server Unit Disk :=
  (Server.init longer).recv diskCtxt (fun _ => true) readRequest reader

def offeredBoth : Server Unit Disk := offeredOne.recv diskCtxt (fun _ => true) firstAck reader

theorem reach_offeredBoth :
    Reach (step diskCtxt) Acknowledges (· = Server.init longer) offeredBoth := by
  have hone : Reach (step diskCtxt) Acknowledges (· = Server.init longer) offeredOne :=
    .next (.recv readRequest reader fun _ => true) (.start rfl) (by rintro ⟨⟩) rfl
  refine .next (.recv firstAck reader fun _ => true) hone ?_ rfl
  intro _ _ _ _
  have hsession : ((session offeredOne.log).map fun S : Session Unit Disk =>
      (decide ((S.peer, dataPacket (firstAck.sbuf 1) (List.replicate 512 7)) ∈ S.sent),
        decide (S.read.length < 65536))) = some (true, true) := by
    decide +kernel
  obtain ⟨S, hS, hvalues⟩ := Option.map_eq_some_iff.mp hsession
  simp only [Prod.mk.injEq, decide_eq_true_eq] at hvalues
  exact ⟨S, List.replicate 512 7, hS, hvalues.1, hvalues.2⟩

/-- Packets of both blocks, repeated and out of order. -/
def arrived : List (BitVec 16 × List Byte) :=
  [(2, [1, 2, 3]), (1, List.replicate 512 7), (1, List.replicate 512 7), (2, [1, 2, 3]),
    (1, List.replicate 512 7)]

/-- From these the peer has the file. -/
theorem two_blocks_downloaded : ∃ S, session offeredBoth.log = some S ∧
    (∀ p ∈ arrived, ∃ q, (q, dataPacket p.1 p.2) ∈ S.sent) ∧
    (arrived.foldl receive []).length = 2 ∧
    (arrived.foldl receive []).flatten = S.start.contents S.start.name := by
  have hsession : ((session offeredBoth.log).map fun S : Session Unit Disk =>
      (S.write, decide (S.read.length < 65536),
        decide (∀ p ∈ arrived, (reader, dataPacket p.1 p.2) ∈ S.sent))) =
      some (false, true, true) := by
    decide +kernel
  obtain ⟨S, hS, hvalues⟩ := Option.map_eq_some_iff.mp hsession
  simp only [Prod.mk.injEq, decide_eq_true_eq] at hvalues
  obtain ⟨hw, hread, hsent⟩ := hvalues
  have hps : ∀ p ∈ arrived, ∃ q, (q, dataPacket p.1 p.2) ∈ S.sent := fun p hp =>
    ⟨reader, hsent p hp⟩
  have hreceived : (arrived.foldl receive []).length = 2 ∧
      [1, 2, 3] ∈ arrived.foldl receive [] := by
    decide +kernel
  exact ⟨S, hS, hps, hreceived.1, (downloaded_file disk .documented diskView longer
    reach_offeredBoth hS hw hread hps).2 _ hreceived.2 (by decide)⟩

end Psc.Tftp
