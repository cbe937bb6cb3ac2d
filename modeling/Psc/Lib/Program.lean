import Psc.Lib.Interleaving

/-!
# Programs of accesses

A program does accesses one by one, each of which gets a reply, and ends with a result or an error.
What an access does to a state and what it replies is given apart. A program can be run alone
(`run`), and two of them can be run access by access, as a schedule says (`par`).

If every access that the programs can do keeps an invariant, and replies the same wherever that
holds, then a program does the same accesses in every state in which it holds, whatever the other
does in between (`par_spec`).
-/

namespace Program

open Interleaving

/-- A program with the accesses `ι`, whose replies are `ρ`. -/
inductive Prog (ι : Type) (ρ : ι → Type) (ε α : Type) where
  | ret (a : α)
  | fail (e : ε)
  | op (i : ι) (k : ρ i → Prog ι ρ ε α)

section Programs

variable {ι : Type} {ρ : ι → Type} {ε α β σ : Type}

namespace Prog

/-- One program after another. -/
def bind : Prog ι ρ ε α → (α → Prog ι ρ ε β) → Prog ι ρ ε β
  | ret a, f => f a
  | fail e, _ => fail e
  | op i k, f => op i fun r => (k r).bind f

instance : Monad (Prog ι ρ ε) where
  pure := ret
  bind := bind

/-- A single access. -/
def access (i : ι) : Prog ι ρ ε (ρ i) := op i ret

/-- A computation that may have an error. -/
def ofExcept : Except ε α → Prog ι ρ ε α
  | .ok a => ret a
  | .error e => fail e

/-- All accesses that a program can do, whatever the replies, meet a condition. -/
def Every (A : ι → Prop) : Prog ι ρ ε α → Prop
  | ret _ => True
  | fail _ => True
  | op i k => A i ∧ ∀ r, (k r).Every A

variable {A : ι → Prop}

theorem Every.bind {p : Prog ι ρ ε α} {f : α → Prog ι ρ ε β} (hp : p.Every A)
    (hf : ∀ a, (f a).Every A) : (p >>= f).Every A := by
  induction p with
  | ret a => exact hf a
  | fail e => trivial
  | op i k ih => exact ⟨hp.1, fun r => ih r (hp.2 r)⟩

theorem Every.mono {A' : ι → Prop} {p : Prog ι ρ ε α} (hp : p.Every A) (h : ∀ i, A i → A' i) :
    p.Every A' := by
  induction p with
  | ret a => trivial
  | fail e => trivial
  | op i k ih => exact ⟨h i hp.1, fun r => ih r (hp.2 r)⟩

theorem Every.ofExcept (x : Except ε α) : (ofExcept x : Prog ι ρ ε α).Every A := by
  cases x <;> trivial

theorem Every.forM {l : List α} {f : α → Prog ι ρ ε PUnit} (hf : ∀ a ∈ l, (f a).Every A) :
    (l.forM f).Every A := by
  induction l with
  | nil => trivial
  | cons a l ih =>
    show (f a >>= fun _ => l.forM f).Every A
    exact (hf a List.mem_cons_self).bind fun _ => ih fun b hb => hf b (List.mem_cons_of_mem a hb)

end Prog

/-! ## A program alone -/

variable (h : (i : ι) → σ → ρ i × σ)

/-- The result of a program, and the state it leaves. -/
def run : Prog ι ρ ε α → σ → Except ε α × σ
  | .ret a, s => (.ok a, s)
  | .fail e, s => (.error e, s)
  | .op i k, s => run (k (h i s).1) (h i s).2

/-- The accesses that a program does. -/
def trace : Prog ι ρ ε α → σ → List ι
  | .ret _, _ => []
  | .fail _, _ => []
  | .op i k, s => i :: trace (k (h i s).1) (h i s).2

/-- The state after some accesses. -/
def after (is : List ι) (s : σ) : σ := is.foldl (fun s i => (h i s).2) s

variable {h}

theorem run_bind (p : Prog ι ρ ε α) (f : α → Prog ι ρ ε β) (s : σ) :
    run h (p >>= f) s =
      match run h p s with
      | (.ok a, s) => run h (f a) s
      | (.error e, s) => (.error e, s) := by
  induction p generalizing s with
  | ret a => rfl
  | fail e => rfl
  | op i k ih => exact ih _ _

theorem trace_bind (p : Prog ι ρ ε α) (f : α → Prog ι ρ ε β) (s : σ) :
    trace h (p >>= f) s = trace h p s ++
      match run h p s with
      | (.ok a, s) => trace h (f a) s
      | (.error _, _) => [] := by
  induction p generalizing s with
  | ret a => rfl
  | fail e => rfl
  | op i k ih => exact congrArg (i :: ·) (ih _ _)

theorem run_state (p : Prog ι ρ ε α) (s : σ) : (run h p s).2 = after h (trace h p s) s := by
  induction p generalizing s with
  | ret a => rfl
  | fail e => rfl
  | op i k ih => exact ih _ _

theorem every_trace {A : ι → Prop} {p : Prog ι ρ ε α} (hp : p.Every A) (s : σ) :
    ∀ i ∈ trace h p s, A i := by
  induction p generalizing s with
  | ret a => simp [trace]
  | fail e => simp [trace]
  | op i k ih =>
    intro j hj
    rcases List.mem_cons.mp hj with rfl | hj
    · exact hp.1
    · exact ih _ (hp.2 _) _ j hj

theorem Prog.Every.run_keeps {A : ι → Prop} {I : σ → Prop} {p : Prog ι ρ ε α} (hp : p.Every A)
    (hkeeps : ∀ i s, A i → I s → I (h i s).2) {s : σ} (hs : I s) : I (run h p s).2 := by
  induction p generalizing s with
  | ret a => exact hs
  | fail e => exact hs
  | op i k ih => exact ih _ (hp.2 _) (hkeeps i s hp.1 hs)

theorem run_congr_of_trace {look : (i : ι) → σ → ρ i} {p : Prog ι ρ ε α} {s s' : σ}
    (hsame : ∀ i ∈ trace (fun i s => (look i s, s)) p s, look i s = look i s') :
    (run (fun i s => (look i s, s)) p s).1 = (run (fun i s => (look i s, s)) p s').1 := by
  induction p with
  | ret a => rfl
  | fail e => rfl
  | op i k ih =>
    rw [trace, List.forall_mem_cons] at hsame
    rw [run, run, ← hsame.1]
    exact ih _ hsame.2

/-! ## Two programs -/

variable (h)

/-- Two programs, access by access: `true` in the schedule is the first of them. There is an outcome
if the schedule is possible and both have ended with it: the accesses, each with whose it is, and
the state. -/
def par : List Bool → Prog ι ρ ε α → Prog ι ρ ε β → σ → Option (List (Bool × ι) × σ)
  | [], .ret _, .ret _, s => some ([], s)
  | true :: bs, .op i k, q, s =>
    (par bs (k (h i s).1) q (h i s).2).map fun r => ((true, i) :: r.1, r.2)
  | false :: bs, p, .op i k, s =>
    (par bs p (k (h i s).1) (h i s).2).map fun r => ((false, i) :: r.1, r.2)
  | _, _, _, _ => none

/-- The accesses with `A` keep `I`, and reply alike wherever it holds. -/
structure Steady (A : ι → Prop) (I : σ → Prop) : Prop where
  keeps : ∀ i s, A i → I s → I (h i s).2
  reply : ∀ i s s', A i → I s → I s' → (h i s).1 = (h i s').1

variable {h} {A : ι → Prop} {I : σ → Prop}

namespace Steady

variable (hst : Steady h A I)

include hst

theorem trace_eq {p : Prog ι ρ ε α} (hp : p.Every A) {s s' : σ} (hs : I s) (hs' : I s') :
    trace h p s = trace h p s' := by
  induction p generalizing s s' with
  | ret a => rfl
  | fail e => rfl
  | op i k ih =>
    have hreply := hst.reply i s s' hp.1 hs hs'
    unfold trace
    rw [hreply]
    exact congrArg (i :: ·) (ih _ (hp.2 _) (hst.keeps i s hp.1 hs) (hst.keeps i s' hp.1 hs'))

theorem run {p : Prog ι ρ ε α} (hp : p.Every A) {s : σ} (hs : I s) : I (run h p s).2 :=
  hp.run_keeps hst.keeps hs

/-- Two programs do together what each does alone. -/
theorem par_spec {bs : List Bool} {p : Prog ι ρ ε α} {q : Prog ι ρ ε β} (hp : p.Every A)
    (hq : q.Every A) {s s₀ s' : σ} (hs : I s) (hs₀ : I s₀) {zs : List (Bool × ι)}
    (hpar : par h bs p q s = some (zs, s')) :
    part true zs = trace h p s₀ ∧ part false zs = trace h q s₀ ∧
      s' = after h (zs.map Prod.snd) s := by
  fun_induction par h bs p q s generalizing zs s₀ with
  | case1 a b s =>
    obtain ⟨rfl, rfl⟩ := Prod.mk.inj (Option.some.inj hpar)
    exact ⟨rfl, rfl, rfl⟩
  | case2 bs i k q s ih =>
    obtain ⟨⟨zs, s'⟩, hrest, hzs⟩ := Option.map_eq_some_iff.mp hpar
    obtain ⟨rfl, rfl⟩ := Prod.mk.inj hzs
    obtain ⟨h₁, h₂, rfl⟩ := ih (hp.2 _) hq (hst.keeps i s hp.1 hs) (hst.keeps i s₀ hp.1 hs₀) hrest
    refine ⟨?_, ?_, rfl⟩
    · rw [part_cons_self, h₁, trace, hst.reply i s₀ s hp.1 hs₀ hs]
    · rw [part_cons_of_ne (by decide), h₂]
      exact hst.trace_eq hq (hst.keeps i s₀ hp.1 hs₀) hs₀
  | case3 bs p i k s ih =>
    obtain ⟨⟨zs, s'⟩, hrest, hzs⟩ := Option.map_eq_some_iff.mp hpar
    obtain ⟨rfl, rfl⟩ := Prod.mk.inj hzs
    obtain ⟨h₁, h₂, rfl⟩ := ih hp (hq.2 _) (hst.keeps i s hq.1 hs) (hst.keeps i s₀ hq.1 hs₀) hrest
    refine ⟨?_, ?_, rfl⟩
    · rw [part_cons_of_ne (by decide), h₁]
      exact hst.trace_eq hp (hst.keeps i s₀ hq.1 hs₀) hs₀
    · rw [part_cons_self, h₂, trace, hst.reply i s₀ s hq.1 hs₀ hs]
  | case4 => cases hpar

end Steady

end Programs

end Program
