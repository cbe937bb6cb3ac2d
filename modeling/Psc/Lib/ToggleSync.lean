import Psc.Lib.Clocked

/-!
# Toggle synchronisers

A word crosses from one clock domain to another together with a toggle. The source registers the
word and turns the toggle; the destination passes the toggle through a chain of registers and takes
the word, which is not synchronised, when the last two of them differ. Edges of the two clocks come
in any order.

A destination edge that follows a change may see the old or the new toggle, and any mixture of the
old and the new word; `mix` is what it sees of the word, and all that is known of it is that a word
that has not changed is seen as it is. `crossed`: if the source leaves six destination edges between
two words, each word is taken once, whole and in order.
-/

namespace ToggleSync

open Clocked

variable {α ι : Type*}

/-- An edge of the source clock, with a word to register or without, or of the destination clock. -/
inductive Edge (α ι : Type*) where
  | src (v : Option α)
  | dst (pick : Bool) (c : ι)

/-- The registers. `seenData` and `seenToggle` are what the last destination edge found. -/
structure State (α : Type*) where
  data : α
  toggle : Bool
  stage1 : Bool
  stage2 : Bool
  stage3 : Bool
  prev : Bool
  out : α
  ready : Bool
  seenData : α
  seenToggle : Bool

/-- One edge. -/
def step (mix : ι → α → α → α) (s : State α) : Edge α ι → State α
  | .src none => s
  | .src (some v) => { s with data := v, toggle := !s.toggle }
  | .dst pick c =>
    { s with
      stage1 := if pick then s.toggle else s.seenToggle
      stage2 := s.stage1
      stage3 := s.stage2
      prev := s.stage3
      out := if s.stage3 ≠ s.prev then mix c s.data s.seenData else s.out
      ready := s.stage3 ≠ s.prev
      seenData := s.data
      seenToggle := s.toggle }

/-! ## Words sent and words taken -/

/-- The number of destination edges since the last word, if there was one. -/
def since (inp : ℕ → Edge α ι) : ℕ → Option ℕ
  | 0 => none
  | n + 1 =>
    match inp n with
    | .src none => since inp n
    | .src (some _) => some 0
    | .dst _ _ => (since inp n).map (· + 1)

/-- The words sent before edge `n`. -/
def sent (inp : ℕ → Edge α ι) : ℕ → List α
  | 0 => []
  | n + 1 =>
    match inp n with
    | .src (some v) => sent inp n ++ [v]
    | _ => sent inp n

/-- The words taken: what is output in each destination cycle with `ready` high. -/
def taken (st : ℕ → State α) (inp : ℕ → Edge α ι) : ℕ → List α
  | 0 => []
  | n + 1 =>
    match inp n with
    | .dst _ _ =>
      if (st (n + 1)).ready then taken st inp n ++ [(st (n + 1)).out] else taken st inp n
    | _ => taken st inp n

/-- Two words are at least six destination edges apart. -/
def Spaced (inp : ℕ → Edge α ι) : Prop :=
  ∀ n v, inp n = .src (some v) → ∀ k ∈ since inp n, 6 ≤ k

/-! ## The invariant -/

/-- The toggle has passed the first `a` of the four registers. -/
def Passed (s : State α) (a : ℕ) : Prop :=
  s.stage1 = (s.toggle ^^ decide (a < 1)) ∧ s.stage2 = (s.toggle ^^ decide (a < 2)) ∧
    s.stage3 = (s.toggle ^^ decide (a < 3)) ∧ s.prev = (s.toggle ^^ decide (a < 4))

/-- The last word is under way, and has been for `n` destination edges. -/
structure UnderWay (s : State α) (k : Option ℕ) (ws : List α) (a n : ℕ) : Prop where
  since : k = some n
  lower : a ≤ n
  upper : n ≤ a + 1
  last : ws.getLast? = some s.data
  fresh : n = 0 → s.seenToggle = !s.toggle
  seen : 0 < n → s.seenToggle = s.toggle ∧ s.seenData = s.data

/-- What holds between edges, for the words `ws` sent and `ts` taken: the toggle has passed `a`
registers, and the last word is taken when it has passed all four. -/
structure Inv (out₀ : α) (s : State α) (k : Option ℕ) (ws ts : List α) (a : ℕ) : Prop where
  passed : Passed s a
  taken : ts = if a = 4 then ws else ws.dropLast
  out : s.out = ts.getLast?.getD out₀
  le : a ≤ 4
  underWay : a < 4 → ∃ n, UnderWay s k ws a n
  settled : a = 4 → s.seenToggle = s.toggle

section Step

variable {out₀ : α} {s : State α} {k : Option ℕ} {ws ts : List α} {a : ℕ}

theorem Inv.src (h : Inv out₀ s k ws ts a) (hk : ∀ n ∈ k, 6 ≤ n) (mix : ι → α → α → α) (v : α) :
    Inv out₀ (step mix s (.src (some v))) (some 0) (ws ++ [v]) ts 0 := by
  have ha : a = 4 := by
    by_contra hne
    obtain ⟨n, hn⟩ := h.underWay (Nat.lt_of_le_of_ne h.le hne)
    have := hk n hn.since
    have := hn.upper
    have := h.le
    omega
  subst ha
  obtain ⟨h₁, h₂, h₃, h₄⟩ := h.passed
  refine ⟨?_, ?_, h.out, by omega, ?_, by omega⟩
  · simp only [Passed, step, h₁, h₂, h₃, h₄]
    simp
  · rw [if_neg (by omega), List.dropLast_concat, h.taken, if_pos rfl]
  · intro _
    refine ⟨0, rfl, le_rfl, by omega, by simp [step], ?_, by omega⟩
    intro _
    simp [step, h.settled rfl]

theorem ready_dst (h : Inv out₀ s k ws ts a) (mix : ι → α → α → α) (pick : Bool) (c : ι) :
    (step mix s (.dst pick c)).ready = decide (a = 3) := by
  obtain ⟨-, -, h₃, h₄⟩ := h.passed
  have hle := h.le
  show decide (s.stage3 ≠ s.prev) = _
  rw [h₃, h₄, decide_eq_decide, ne_eq, Bool.xor_right_inj]
  constructor
  · intro hne
    by_contra ha
    apply hne
    rw [decide_eq_decide]
    omega
  · rintro rfl
    simp

theorem Passed.dst (h : Passed s a) (mix : ι → α → α → α) {pick : Bool} (c : ι) {b : ℕ}
    (hfirst : (if pick then s.toggle else s.seenToggle) = (s.toggle ^^ decide (b < 1)))
    (hrest : ∀ j, 1 ≤ j → j ≤ 3 → (a < j ↔ b < j + 1)) : Passed (step mix s (.dst pick c)) b := by
  obtain ⟨h₁, h₂, h₃, -⟩ := h
  refine ⟨hfirst, h₁.trans ?_, h₂.trans ?_, h₃.trans ?_⟩
  · rw [decide_eq_decide.mpr (hrest 1 le_rfl (by omega))]
    rfl
  · rw [decide_eq_decide.mpr (hrest 2 (by omega) (by omega))]
    rfl
  · rw [decide_eq_decide.mpr (hrest 3 (by omega) le_rfl)]
    rfl

theorem out_dst (h : Inv out₀ s k ws ts a) (mix : ι → α → α → α) (pick : Bool) (c : ι) :
    (step mix s (.dst pick c)).out = if a = 3 then mix c s.data s.seenData else s.out := by
  have hready := ready_dst h mix pick c
  have hout : (step mix s (.dst pick c)).out =
      if (step mix s (.dst pick c)).ready then mix c s.data s.seenData else s.out := by
    show (if s.stage3 ≠ s.prev then _ else _) = if decide (s.stage3 ≠ s.prev) = true then _ else _
    simp only [decide_eq_true_eq]
  rw [hout, hready]
  simp only [decide_eq_true_eq]

/-- The first edge after a word: the toggle is seen or not. -/
theorem Inv.dst_first (h : Inv out₀ s k ws ts 0) (hn : UnderWay s k ws 0 0) (mix : ι → α → α → α)
    (pick : Bool) (c : ι) :
    Inv out₀ (step mix s (.dst pick c)) (k.map (· + 1)) ws ts (if pick then 1 else 0) := by
  have hne : (if pick then 1 else 0) ≠ 4 := by split_ifs <;> omega
  refine ⟨h.passed.dst mix c ?_ ?_, ?_, ?_, ?_, ?_, fun h4 => absurd h4 hne⟩
  · cases pick with
    | true => simp
    | false => simp [hn.fresh rfl]
  · intro j hj _
    split_ifs <;> omega
  · rw [h.taken, if_neg (by omega), if_neg hne]
  · rw [out_dst h, if_neg (by omega)]
    exact h.out
  · split_ifs <;> omega
  · intro _
    refine ⟨1, by rw [hn.since]; rfl, by split_ifs <;> omega, by omega, hn.last, by omega, ?_⟩
    exact fun _ => ⟨rfl, rfl⟩

/-- The later edges: the word stands, and comes out when the toggle is in the last register. -/
theorem Inv.dst_standing (h : Inv out₀ s k ws ts a) {n : ℕ} (hn : UnderWay s k ws a n)
    (hpos : 0 < n) (ha : a < 4) {mix : ι → α → α → α} (hmix : ∀ c x, mix c x x = x) (pick : Bool)
    (c : ι) :
    Inv out₀ (step mix s (.dst pick c)) (k.map (· + 1)) ws
      (if a = 3 then ts ++ [(step mix s (.dst pick c)).out] else ts) (a + 1) := by
  obtain ⟨htoggle, hdata⟩ := hn.seen hpos
  have hupper := hn.upper
  have hstage : (if pick then s.toggle else s.seenToggle) = (s.toggle ^^ decide (a + 1 < 1)) := by
    rw [htoggle, ite_self]
    simp
  have hlast : ws = ws.dropLast ++ [s.data] := by
    obtain ⟨init, hinit⟩ := List.getLast?_eq_some_iff.mp hn.last
    rw [hinit, List.dropLast_concat]
  have htaken := h.taken
  rw [if_neg (by omega)] at htaken
  refine ⟨h.passed.dst mix c hstage (by omega), ?_, ?_, by omega, ?_, fun _ => rfl⟩
  · by_cases h3 : a = 3
    · rw [if_pos h3, if_pos (by omega), out_dst h, if_pos h3, hdata, hmix, htaken, ← hlast]
    · rw [if_neg h3, if_neg (by omega)]
      exact htaken
  · by_cases h3 : a = 3
    · rw [if_pos h3, List.getLast?_concat]
      rfl
    · rw [if_neg h3, out_dst h, if_neg h3]
      exact h.out
  · intro _
    exact ⟨n + 1, by rw [hn.since]; rfl, Nat.succ_le_succ hn.lower, by omega, hn.last, by omega,
      fun _ => ⟨rfl, rfl⟩⟩

theorem Inv.dst_settled (h : Inv out₀ s k ws ts 4) (mix : ι → α → α → α) (pick : Bool) (c : ι) :
    Inv out₀ (step mix s (.dst pick c)) (k.map (· + 1)) ws ts 4 := by
  have hstage : (if pick then s.toggle else s.seenToggle) = (s.toggle ^^ decide (4 < 1)) := by
    rw [h.settled rfl, ite_self]
    simp
  refine ⟨h.passed.dst mix c hstage (by omega), h.taken, ?_, le_rfl, by omega, fun _ => rfl⟩
  rw [out_dst h, if_neg (by omega)]
  exact h.out

theorem Inv.dst (h : Inv out₀ s k ws ts a) {mix : ι → α → α → α} (hmix : ∀ c x, mix c x x = x)
    (pick : Bool) (c : ι) :
    ∃ b, Inv out₀ (step mix s (.dst pick c)) (k.map (· + 1)) ws
      (if (step mix s (.dst pick c)).ready then ts ++ [(step mix s (.dst pick c)).out] else ts)
      b := by
  rw [ready_dst h mix pick c]
  simp only [decide_eq_true_eq]
  rcases Nat.lt_or_eq_of_le h.le with hlt | rfl
  · obtain ⟨n, hn⟩ := h.underWay hlt
    rcases Nat.eq_zero_or_pos n with rfl | hpos
    · obtain rfl : a = 0 := Nat.le_zero.mp hn.lower
      exact ⟨_, h.dst_first hn mix pick c⟩
    · exact ⟨a + 1, h.dst_standing hn hpos hlt hmix pick c⟩
  · exact ⟨4, h.dst_settled mix pick c⟩

end Step

/-! ## Runs -/

section Runs

variable {mix : ι → α → α → α} {s : State α} {inp : ℕ → Edge α ι}

/-- Nothing has been sent. -/
structure Initial (s : State α) : Prop where
  toggle : s.toggle = false
  stage1 : s.stage1 = false
  stage2 : s.stage2 = false
  stage3 : s.stage3 = false
  prev : s.prev = false
  seenToggle : s.seenToggle = false

theorem inv_initial (hs : Initial s) : Inv s.out s none [] [] 4 := by
  refine ⟨?_, rfl, rfl, le_rfl, by omega, fun _ => hs.seenToggle.trans hs.toggle.symm⟩
  simp [Passed, hs.toggle, hs.stage1, hs.stage2, hs.stage3, hs.prev]

theorem inv_run (hs : Initial s) (hmix : ∀ c x, mix c x x = x) (hspaced : Spaced inp) (n : ℕ) :
    ∃ a, Inv s.out (run (step mix) s inp n) (since inp n) (sent inp n)
      (taken (run (step mix) s inp) inp n) a := by
  induction n with
  | zero => exact ⟨4, inv_initial hs⟩
  | succ n ih =>
    obtain ⟨a, ih⟩ := ih
    unfold since sent taken
    rw [run_succ]
    cases he : inp n with
    | src v =>
      cases v with
      | none => exact ⟨a, ih⟩
      | some v => exact ⟨0, ih.src (hspaced n v he) mix v⟩
    | dst pick c => exact ih.dst hmix pick c

/-- Each word is taken once, whole and in order: what has been taken is all that was sent, or all
but the last word in the first four destination edges after it. The output is the last word
taken. -/
theorem crossed (hs : Initial s) (hmix : ∀ c x, mix c x x = x) (hspaced : Spaced inp) (n : ℕ) :
    (taken (run (step mix) s inp) inp n = sent inp n ∨
      (∃ k ∈ since inp n, k ≤ 4) ∧ taken (run (step mix) s inp) inp n = (sent inp n).dropLast) ∧
    (run (step mix) s inp n).out = (taken (run (step mix) s inp) inp n).getLast?.getD s.out := by
  obtain ⟨a, h⟩ := inv_run hs hmix hspaced n
  refine ⟨?_, h.out⟩
  rcases Nat.lt_or_eq_of_le h.le with hlt | rfl
  · obtain ⟨k, hk⟩ := h.underWay hlt
    have hupper := hk.upper
    refine Or.inr ⟨⟨k, hk.since, by omega⟩, ?_⟩
    rw [h.taken, if_neg (by omega)]
  · exact Or.inl h.taken

end Runs

end ToggleSync
