import Psc.Tftp.Server

/-!
# The format of a request

A request is an opcode, a file name and a mode, each ended by a NUL. `recv` looks for the two NULs
with `pbuf_memfind` and copies what is before them, in 16-bit offsets that also hold the value for
"not found".

`parseRequest_eq_ok_iff`: it accepts what has that form, with a file name of at most 20 characters
and a mode of at most 7, and reads both as they are. `parseRequest_eq_error_iff` says which text the
others are answered with.
-/

namespace Psc.Tftp

open Net CString

/-- What a request says: the bytes from offset `start` on begin with a string of at most `n`
characters, and `rest` is behind its NUL. -/
structure Field (b : List Byte) (n : ℕ) (str rest : List Byte) : Prop where
  eq : b = str ++ 0 :: rest
  nul : (0 : Byte) ∉ str
  length : str.length ≤ n

/-- A datagram with the file name and the mode in it. -/
def IsRequest (b filename mode : List Byte) : Prop :=
  ∃ r rest, Field (b.drop 2) 20 filename r ∧ Field r 7 mode rest

section Offsets

variable {p : Pbuf} {start n : ℕ} {str rest : List Byte}

theorem length_bytes_lt (p : Pbuf) : p.bytes.length < 65535 := by
  unfold Pbuf.bytes
  rw [List.length_append]
  exact p.fits

theorem offset_lt (h : p.bytes.drop start = str ++ 0 :: rest) :
    start + str.length < 65535 := by
  have hlen := congrArg List.length h
  have hp := length_bytes_lt p
  rw [List.length_drop, List.length_append, List.length_cons] at hlen
  omega

theorem drop_offset (h : p.bytes.drop start = str ++ 0 :: rest) :
    p.bytes.drop (start + str.length + 1) = rest := by
  rw [Nat.add_assoc, ← List.drop_drop, h, List.drop_append]
  simp

theorem copyPartial_string (lwip : Lwip) (h : p.bytes.drop start = str ++ 0 :: rest) :
    lwip.copyPartial p (str.length + 1) start = str ++ [0] := by
  rw [lwip.copyPartial_eq, h, List.take_append]
  simp

theorem exists_string_or_notMem (b : List Byte) :
    (∃ str rest, b = str ++ 0 :: rest ∧ (0 : Byte) ∉ str) ∨ (0 : Byte) ∉ b := by
  by_cases h : (0 : Byte) ∈ b
  · exact .inl (List.eq_append_cons_of_mem h)
  · exact .inr h

theorem Field.eq_of_eq {b : List Byte} {str' rest' : List Byte} (hf : Field b n str' rest')
    (h : b = str ++ 0 :: rest) (hnul : (0 : Byte) ∉ str) : str' = str ∧ rest' = rest := by
  have heq : str' ++ 0 :: rest' = str ++ 0 :: rest := hf.eq.symm.trans h
  have hstr : str' = str := by
    rw [← str_append hf.nul rest', heq, str_append hnul]
  subst hstr
  exact ⟨rfl, (List.cons.inj (List.append_cancel_left heq)).2⟩

theorem Field.mem {b : List Byte} (hf : Field b n str rest) : (0 : Byte) ∈ b := by
  rw [hf.eq]
  simp

end Offsets

section Parse

variable {lwip : Lwip} {p : Pbuf} {filename mode r rest : List Byte}

/-- The first half of `parseRequest`: a file name that is there and fits. -/
theorem parseRequest_of_filename (h : Field (p.bytes.drop 2) 20 filename r) :
    parseRequest lwip p =
      if 8 < (lwip.memfindNul p (2 + filename.length + 1) + 65536 - (2 + filename.length)) %
          65536 then
        .error "Mode too long/not NULL terminated"
      else .ok (filename, str 0 (lwip.copyPartial p
        (lwip.memfindNul p (2 + filename.length + 1) - (2 + filename.length))
        (2 + filename.length + 1))) := by
  have hlen := h.length
  have hnot : ¬21 < (2 + filename.length + 0xFFFF) % 65536 := by omega
  have hsub : 2 + filename.length - 1 = filename.length + 1 := by omega
  unfold parseRequest
  simp only [lwip.memfindNul_eq _ _ _ _ h.eq h.nul]
  rw [if_neg hnot, hsub, copyPartial_string lwip h.eq, str_append h.nul []]

/-- The second half: a mode that is there and fits. -/
theorem parseRequest_of_fields (h : Field (p.bytes.drop 2) 20 filename r)
    (hm : Field r 7 mode rest) :
    parseRequest lwip p = .ok (filename, mode) := by
  have hdrop : p.bytes.drop (2 + filename.length + 1) = mode ++ 0 :: rest :=
    (drop_offset h.eq).trans hm.eq
  have hfind := lwip.memfindNul_eq _ _ _ _ hdrop hm.nul
  have hlt := offset_lt hdrop
  have hlen := hm.length
  have hnot :
      ¬8 < (2 + filename.length + 1 + mode.length + 65536 - (2 + filename.length)) % 65536 := by
    omega
  have hsub : 2 + filename.length + 1 + mode.length - (2 + filename.length) = mode.length + 1 := by
    omega
  rw [parseRequest_of_filename h, hfind, if_neg hnot, hsub, copyPartial_string lwip hdrop,
    str_append hm.nul []]

theorem parseRequest_of_no_filename (h : ¬∃ filename r, Field (p.bytes.drop 2) 20 filename r) :
    parseRequest lwip p = .error "Filename too long/not NULL terminated" := by
  have hlong : 21 < (lwip.memfindNul p 2 + 0xFFFF) % 65536 := by
    obtain ⟨str, rest, heq, hnul⟩ | hnone := exists_string_or_notMem (p.bytes.drop 2)
    · have hlt := offset_lt heq
      have hlen : ¬str.length ≤ 20 := fun hlen => h ⟨str, rest, heq, hnul, hlen⟩
      rw [lwip.memfindNul_eq _ _ _ _ heq hnul]
      omega
    · rw [lwip.memfindNul_of_notMem _ _ hnone]
      decide
  unfold parseRequest
  exact if_pos hlong

theorem parseRequest_of_no_mode (h : Field (p.bytes.drop 2) 20 filename r)
    (hm : ¬∃ mode rest, Field r 7 mode rest) :
    parseRequest lwip p = .error "Mode too long/not NULL terminated" := by
  have hdrop := drop_offset h.eq
  have hlen := h.length
  have hlong : 8 <
      (lwip.memfindNul p (2 + filename.length + 1) + 65536 - (2 + filename.length)) % 65536 := by
    obtain ⟨str, rest, heq, hnul⟩ | hnone := exists_string_or_notMem r
    · have heq' := hdrop.trans heq
      have hlt := offset_lt heq'
      have hlen' : ¬str.length ≤ 7 := fun hlen' => hm ⟨str, rest, heq, hnul, hlen'⟩
      rw [lwip.memfindNul_eq _ _ _ _ heq' hnul]
      omega
    · rw [lwip.memfindNul_of_notMem _ _ (hdrop.symm ▸ hnone)]
      omega
  rw [parseRequest_of_filename h, if_pos hlong]

/-- **The format of a request.** A datagram is accepted with a file name and a mode exactly if it
has them, each with its NUL and not too long. -/
theorem parseRequest_eq_ok_iff (p : Pbuf) (filename mode : List Byte) :
    parseRequest lwip p = .ok (filename, mode) ↔ IsRequest p.bytes filename mode := by
  constructor
  · intro h
    by_cases hf : ∃ filename r, Field (p.bytes.drop 2) 20 filename r
    · obtain ⟨filename', r, hf⟩ := hf
      by_cases hm : ∃ mode rest, Field r 7 mode rest
      · obtain ⟨mode', rest, hm⟩ := hm
        rw [parseRequest_of_fields hf hm] at h
        obtain ⟨rfl, rfl⟩ := Prod.mk.inj (Except.ok.inj h)
        exact ⟨r, rest, hf, hm⟩
      · rw [parseRequest_of_no_mode hf hm] at h
        cases h
    · rw [parseRequest_of_no_filename hf] at h
      cases h
  · rintro ⟨r, rest, hf, hm⟩
    exact parseRequest_of_fields hf hm

/-- The two texts, and which of them a datagram is answered with: the first if it has no file name
that fits, the second if it has one and no mode that fits. -/
theorem parseRequest_eq_error_iff (p : Pbuf) (text : String) :
    parseRequest lwip p = .error text ↔
      text = "Filename too long/not NULL terminated" ∧
        (¬∃ filename r, Field (p.bytes.drop 2) 20 filename r) ∨
      text = "Mode too long/not NULL terminated" ∧
        ∃ filename r, Field (p.bytes.drop 2) 20 filename r ∧ ¬∃ mode rest, Field r 7 mode rest := by
  by_cases hf : ∃ filename r, Field (p.bytes.drop 2) 20 filename r
  · obtain ⟨filename, r, hf⟩ := hf
    by_cases hm : ∃ mode rest, Field r 7 mode rest
    · obtain ⟨mode, rest, hm⟩ := hm
      rw [parseRequest_of_fields hf hm]
      constructor
      · intro h
        cases h
      · rintro (⟨-, hno⟩ | ⟨-, filename', r', hf', hno⟩)
        · exact absurd ⟨filename, r, hf⟩ hno
        · obtain ⟨-, rfl⟩ := hf'.eq_of_eq hf.eq hf.nul
          exact absurd ⟨mode, rest, hm⟩ hno
    · rw [parseRequest_of_no_mode hf hm]
      constructor
      · intro h
        exact .inr ⟨(Except.error.inj h).symm, filename, r, hf, hm⟩
      · rintro (⟨-, hno⟩ | ⟨rfl, -⟩)
        · exact absurd ⟨filename, r, hf⟩ hno
        · rfl
  · rw [parseRequest_of_no_filename hf]
    constructor
    · intro h
      exact .inl ⟨(Except.error.inj h).symm, hf⟩
    · rintro (⟨rfl, -⟩ | ⟨-, filename, r, hf', -⟩)
      · rfl
      · exact absurd ⟨filename, r, hf'⟩ hf

end Parse

end Psc.Tftp
