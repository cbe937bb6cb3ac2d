import Psc.Net.Framing

/-!
# Skipping a long message

`pscmsg.c`: `psc_recvskip` discards what does not fit the buffer of `psc_recvmsg`, into 128 bytes on
its stack. Its loop asks for 128 bytes at a time while more are left, and the call after it asks for
what is left; but the loop also ends when a chunk fails.

1. `psc_recvall` never asks for more than what is left of its own length, and stops at the first
   failure (`end_of_mem_recvallCalls`, `recvallCalls_stops`).
2. So all is well while the chunks come (`Delivers`). After a chunk that fails with more than 128
   bytes left, `recv` is called again, for all of them at once (`overrun_of_fails`).

`skipsSafely_iff`: a message is skipped safely exactly if its chunks before the last come.
-/

namespace Psc.Net

/-! ## The calls of `recv` -/

/-- A call of `recv`: where in the buffer it stores, how many bytes it asks for and what it
reports. -/
structure RecvCall where
  off : ℕ
  len : ℕ
  ret : Except Errno ℕ

/-- The failure that a call reports, the end of the stream among them. -/
def RecvCall.failure (x : RecvCall) : Option Errno :=
  match x.ret with
  | .error e => some e
  | .ok 0 => some .enotconn
  | .ok (_ + 1) => none

section Calls

variable (ρ : ℕ → ℕ → Outcome)

/-- The calls that `psc_recvall` makes, into a buffer from `off` on. -/
def recvallCalls (c : Source) (off len : ℕ) : List RecvCall :=
  if len = 0 then []
  else
    match recv ρ c len with
    | (.error e, _) => [⟨off, len, .error e⟩]
    | (.ok [], _) => [⟨off, len, .ok 0⟩]
    | (.ok (_ :: bs), c) =>
      ⟨off, len, .ok (bs.length + 1)⟩ ::
        recvallCalls c (off + (bs.length + 1)) (len - (bs.length + 1))
termination_by len

/-- The calls that `psc_recvskip` makes, into its buffer of 128 bytes. -/
def recvskipCalls (c : Source) (len : ℕ) : List RecvCall :=
  if 128 < len then
    match recvall ρ c 128 with
    | (.ok _, c') => recvallCalls ρ c 0 128 ++ recvskipCalls c' (len - 128)
    | (.error _, c') => recvallCalls ρ c 0 128 ++ recvallCalls ρ c' 0 len
  else recvallCalls ρ c 0 len
termination_by len

end Calls

/-- A call that fails is the last, and what it reports is returned. -/
def StopsWith {α : Type*} (r : Except Errno α) : List RecvCall → Prop
  | [] => True
  | x :: xs =>
    match x.failure with
    | some e => xs = [] ∧ r = .error e
    | none => StopsWith r xs

/-- Each call stays in the buffer of 128 bytes, and none is made after one that fails. -/
structure SkipsSafely (calls : List RecvCall) (r : Except Errno Unit) : Prop where
  inBounds : ∀ x ∈ calls, x.off + x.len ≤ 128
  stops : StopsWith r calls

/-- Asked for `n` bytes, 128 at a time or what is left of 128, `recv` delivers them. -/
def Delivers (ρ : ℕ → ℕ → Outcome) (c : Source) (n : ℕ) : Prop :=
  if n = 0 then True
  else
    match recv ρ c ((n - 1) % 128 + 1) with
    | (.ok (_ :: bs), c) => Delivers ρ c (n - (bs.length + 1))
    | _ => False
termination_by n

section Stops

variable {α β : Type*} {r : Except Errno α} {r' : Except Errno β} {xs ys : List RecvCall}

theorem StopsWith.of_error (h : StopsWith r xs) (hr : ∀ e, r = .error e → r' = .error e) :
    StopsWith r' xs := by
  induction xs with
  | nil => trivial
  | cons x xs ih =>
    unfold StopsWith at h ⊢
    cases hx : x.failure with
    | none =>
      rw [hx] at h
      exact ih h
    | some e =>
      rw [hx] at h
      exact ⟨h.1, hr e h.2⟩

theorem StopsWith.no_failure {a : α} (h : StopsWith (.ok a) xs) : ∀ x ∈ xs, x.failure = none := by
  induction xs with
  | nil => simp
  | cons x xs ih =>
    unfold StopsWith at h
    cases hx : x.failure with
    | some e =>
      rw [hx] at h
      cases h.2
    | none =>
      rw [hx] at h
      exact List.forall_mem_cons.mpr ⟨hx, ih h⟩

theorem StopsWith.append (hxs : ∀ x ∈ xs, x.failure = none) (hys : StopsWith r ys) :
    StopsWith r (xs ++ ys) := by
  induction xs with
  | nil => exact hys
  | cons x xs ih =>
    obtain ⟨hx, hxs⟩ := List.forall_mem_cons.mp hxs
    rw [List.cons_append, StopsWith, hx]
    exact ih hxs

end Stops

/-! ## `psc_recvall` -/

section Recvall

variable {ρ : ℕ → ℕ → Outcome}

theorem length_recv_le {c c' : Source} {len : ℕ} {bs : List Byte}
    (h : recv ρ c len = (.ok bs, c')) : bs.length ≤ len := by
  unfold recv at h
  split at h
  · cases h
  · obtain ⟨rfl, -⟩ := Prod.mk.inj (h.trans rfl) |>.imp_left Except.ok.inj
    rw [List.length_take]
    omega

variable (ρ)

/-- A call of `psc_recvall` ends where its buffer does. -/
theorem end_of_mem_recvallCalls (c : Source) (off len : ℕ) :
    ∀ x ∈ recvallCalls ρ c off len, x.off + x.len = off + len := by
  induction len using Nat.strong_induction_on generalizing c off with
  | _ len ih =>
    intro x hx
    rw [recvallCalls] at hx
    split_ifs at hx with h0
    · cases hx
    · rcases hr : recv ρ c len with ⟨e | _ | ⟨b, bs⟩, c'⟩
      · rw [hr] at hx
        rw [List.mem_singleton.mp hx]
      · rw [hr] at hx
        rw [List.mem_singleton.mp hx]
      · have hle := length_recv_le hr
        rw [hr] at hx
        rw [List.length_cons] at hle
        rcases List.mem_cons.mp hx with rfl | hx
        · rfl
        · rw [ih _ (by omega) c' _ x hx]
          omega

/-- `psc_recvall` stops at the first failure. -/
theorem recvallCalls_stops (c : Source) (off len : ℕ) :
    StopsWith (recvall ρ c len).1 (recvallCalls ρ c off len) := by
  induction len using Nat.strong_induction_on generalizing c off with
  | _ len ih =>
    rw [recvallCalls, recvall]
    by_cases h0 : len = 0
    · rw [if_pos h0, if_pos h0]
      trivial
    · rw [if_neg h0, if_neg h0]
      rcases hr : recv ρ c len with ⟨e | _ | ⟨b, bs⟩, c'⟩
      · exact ⟨rfl, rfl⟩
      · exact ⟨rfl, rfl⟩
      · have hrest := ih (len - (bs.length + 1)) (by omega) c' (off + (bs.length + 1))
        refine hrest.of_error fun e he => ?_
        dsimp only
        rcases hall : recvall ρ c' (len - (bs.length + 1)) with ⟨e' | more, c''⟩
        · rw [hall] at he
          exact he
        · rw [hall] at he
          cases he

theorem recvallCalls_ne_nil (c : Source) (off : ℕ) {len : ℕ} (h0 : len ≠ 0) :
    recvallCalls ρ c off len ≠ [] := by
  rw [recvallCalls, if_neg h0]
  rcases recv ρ c len with ⟨e | _ | ⟨b, bs⟩, c'⟩ <;> exact List.cons_ne_nil _ _

/-- The bytes of whole chunks and of a part of one come if the part does and then the chunks do. -/
theorem delivers_add_iff (c : Source) (j r : ℕ) (hr : r ≤ 128) : Delivers ρ c (128 * j + r) ↔
    ∃ bs c', recvall ρ c r = (.ok bs, c') ∧ Delivers ρ c' (128 * j) := by
  induction r using Nat.strong_induction_on generalizing c with
  | _ r ih =>
    by_cases h0 : r = 0
    · rw [h0, recvall, if_pos rfl]
      constructor
      · exact fun h => ⟨[], c, rfl, h⟩
      · rintro ⟨bs, c', heq, h⟩
        obtain ⟨-, rfl⟩ := Prod.mk.inj heq
        exact h
    · rw [Delivers, if_neg (by omega), recvall, if_neg h0,
        show (128 * j + r - 1) % 128 + 1 = r by omega]
      rcases hrecv : recv ρ c r with ⟨e | _ | ⟨b, bs⟩, c'⟩
      · simp
      · simp
      · have hle := length_recv_le hrecv
        rw [List.length_cons] at hle
        show Delivers ρ c' (128 * j + r - (bs.length + 1)) ↔ _
        rw [show 128 * j + r - (bs.length + 1) = 128 * j + (r - (bs.length + 1)) by omega,
          ih _ (by omega) c' (by omega)]
        dsimp only
        rcases recvall ρ c' (r - (bs.length + 1)) with ⟨e | more, c''⟩
        · simp
        · simp

end Recvall

/-! ## `psc_recvskip` -/

section Recvskip

variable (ρ : ℕ → ℕ → Outcome) (c : Source) (len : ℕ)

/-- While the chunks come, all is well. -/
theorem skipsSafely_of_delivers (h : Delivers ρ c (128 * ((len - 1) / 128))) :
    SkipsSafely (recvskipCalls ρ c len) (recvskip ρ c len).1 := by
  induction len using Nat.strong_induction_on generalizing c with
  | _ len ih =>
    rw [recvskipCalls, recvskip]
    by_cases hlong : 128 < len
    · rw [if_pos hlong, if_pos hlong]
      rw [show 128 * ((len - 1) / 128) = 128 * ((len - 128 - 1) / 128) + 128 by omega,
        delivers_add_iff ρ c _ 128 le_rfl] at h
      obtain ⟨bs, c', hchunk, hrest⟩ := h
      have hsafe := ih (len - 128) (by omega) c' hrest
      have hstops := recvallCalls_stops ρ c 0 128
      rw [hchunk] at hstops ⊢
      refine ⟨fun x hx => ?_, hsafe.stops.append hstops.no_failure⟩
      rcases List.mem_append.mp hx with hx | hx
      · exact (end_of_mem_recvallCalls ρ c 0 128 x hx).le
      · exact hsafe.inBounds x hx
    · rw [if_neg hlong, if_neg hlong]
      refine ⟨fun x hx => ?_, ?_⟩
      · rw [end_of_mem_recvallCalls ρ c 0 len x hx]
        omega
      · refine (recvallCalls_stops ρ c 0 len).of_error fun e he => ?_
        rw [he]
        rfl

/-- A chunk that does not come is followed by a call for more than the buffer holds. -/
theorem overrun_of_fails (h : ¬Delivers ρ c (128 * ((len - 1) / 128))) :
    ∃ x ∈ recvskipCalls ρ c len, 128 < x.off + x.len := by
  induction len using Nat.strong_induction_on generalizing c with
  | _ len ih =>
    have hlong : 128 < len := by
      by_contra hle
      rw [show 128 * ((len - 1) / 128) = 0 by omega, Delivers, if_pos rfl] at h
      exact h trivial
    rw [show 128 * ((len - 1) / 128) = 128 * ((len - 128 - 1) / 128) + 128 by omega,
      delivers_add_iff ρ c _ 128 le_rfl] at h
    rw [recvskipCalls, if_pos hlong]
    rcases hchunk : recvall ρ c 128 with ⟨e | bs, c'⟩
    · obtain ⟨x, hx⟩ := List.exists_mem_of_ne_nil _
        (recvallCalls_ne_nil ρ c' 0 (by omega : len ≠ 0))
      refine ⟨x, List.mem_append_right _ hx, ?_⟩
      rw [end_of_mem_recvallCalls ρ c' 0 len x hx]
      omega
    · obtain ⟨x, hx, hlt⟩ := ih (len - 128) (by omega) c' fun hd => h ⟨bs, c', hchunk, hd⟩
      exact ⟨x, List.mem_append_right _ hx, hlt⟩

end Recvskip

/-- **Skipping is safe** exactly if `recv` delivers the chunks of 128 bytes before the last. -/
theorem skipsSafely_iff (ρ : ℕ → ℕ → Outcome) (c : Source) (len : ℕ) :
    SkipsSafely (recvskipCalls ρ c len) (recvskip ρ c len).1 ↔
      Delivers ρ c (128 * ((len - 1) / 128)) := by
  constructor
  · intro h
    by_contra hfails
    obtain ⟨x, hx, hlt⟩ := overrun_of_fails ρ c len hfails
    exact absurd (h.inBounds x hx) (not_le.mpr hlt)
  · exact skipsSafely_of_delivers ρ c len

/-- The first call times out; the next has 300 bytes. -/
def timesOut (k _left : ℕ) : Outcome := if k = 0 then .fail (.other 11) else .piece 300

/-- A connection with 300 bytes to come. -/
def slow : Source := ⟨0 :: List.replicate 299 0, 0⟩

theorem recv_timesOut : recv timesOut slow 128 = (.error (.other 11), ⟨slow.rest, 1⟩) := rfl

theorem recv_late :
    recv timesOut ⟨slow.rest, 1⟩ 300 = (.ok (0 :: List.replicate 299 0), ⟨[], 2⟩) := by
  have hlen : slow.rest.length = 300 := by rw [slow, List.length_cons, List.length_replicate]
  show (Except.ok (slow.rest.take (min 300 300)), Source.mk (slow.rest.drop (min 300 300)) 2) = _
  rw [Nat.min_self, List.take_of_length_le hlen.le, List.drop_of_length_le hlen.le]
  rfl

theorem recvall_timesOut : recvall timesOut slow 128 = (.error (.other 11), ⟨slow.rest, 1⟩) := by
  rw [recvall, if_neg (by norm_num), recv_timesOut]

theorem recvskipCalls_timesOut : recvskipCalls timesOut slow 300 =
    [⟨0, 128, .error (.other 11)⟩, ⟨0, 300, .ok 300⟩] := by
  have hfirst : recvallCalls timesOut slow 0 128 = [⟨0, 128, .error (.other 11)⟩] := by
    rw [recvallCalls, if_neg (by norm_num), recv_timesOut]
  have hlate : recvallCalls timesOut ⟨slow.rest, 1⟩ 0 300 = [⟨0, 300, .ok 300⟩] := by
    rw [recvallCalls, if_neg (by norm_num), recv_late]
    dsimp only
    rw [List.length_replicate, recvallCalls, if_pos (by norm_num)]
  rw [recvskipCalls, if_pos (by norm_num), recvall_timesOut]
  dsimp only
  rw [hfirst, hlate]
  rfl

theorem recvskip_timesOut : (recvskip timesOut slow 300).1 = .ok () := by
  have hlate : (recvall timesOut ⟨slow.rest, 1⟩ 300).1 = .ok (0 :: List.replicate 299 0) := by
    rw [recvall, if_neg (by norm_num), recv_late]
    dsimp only
    rw [List.length_replicate, recvall, if_pos (by norm_num)]
    dsimp only
    rw [List.append_nil]
  rw [recvskip, if_pos (by norm_num), recvall_timesOut]
  dsimp only
  rw [hlate]
  rfl

/-- After a timeout with 300 bytes to skip, `recv` is asked to store 300 bytes into the buffer of
128, and success is returned. -/
theorem timesOut_overruns :
    recvskipCalls timesOut slow 300 = [⟨0, 128, .error (.other 11)⟩, ⟨0, 300, .ok 300⟩] ∧
      (recvskip timesOut slow 300).1 = .ok () ∧
      ¬SkipsSafely (recvskipCalls timesOut slow 300) (recvskip timesOut slow 300).1 := by
  refine ⟨recvskipCalls_timesOut, recvskip_timesOut, fun h => ?_⟩
  have hlast := h.inBounds ⟨0, 300, .ok 300⟩ (by rw [recvskipCalls_timesOut]; simp)
  norm_num at hlast

end Psc.Net
