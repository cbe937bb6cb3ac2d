import Mathlib.Tactic

/-!
# Interleaved assignments

Two parties write to cells, and the steps of both come in one list, each with the party it is of.
What a cell holds in the end is what was written to it last. So the outcome is that of the two
parties one after the other exactly if everything the second of them has written stands
(`assign_eq_serial_iff`).
-/

namespace Interleaving

variable {α : Type*}

/-- The steps of one party. -/
def part (b : Bool) (zs : List (Bool × α)) : List α := (zs.filter fun z => z.1 = b).map Prod.snd

@[simp] theorem part_nil (b : Bool) : part b ([] : List (Bool × α)) = [] := rfl

@[simp] theorem part_cons_self (b : Bool) (a : α) (zs : List (Bool × α)) :
    part b ((b, a) :: zs) = a :: part b zs := by
  simp [part]

theorem part_cons_of_ne {b b' : Bool} (h : b' ≠ b) (a : α) (zs : List (Bool × α)) :
    part b ((b', a) :: zs) = part b zs := by
  simp [part, h]

theorem part_append (b : Bool) (zs zs' : List (Bool × α)) :
    part b (zs ++ zs') = part b zs ++ part b zs' := by
  simp [part]

@[simp] theorem part_map (b b' : Bool) (xs : List α) :
    part b (xs.map fun a => (b', a)) = if b' = b then xs else [] := by
  split_ifs with h
  · simp [part, List.filter_map, Function.comp_def, h]
  · simp [part, List.filter_map, Function.comp_def, h]

section Assign

variable {κ ν : Type*} [DecidableEq κ]

/-- Cells after some assignments. -/
def assign (xs : List (κ × ν)) (m : κ → ν) : κ → ν :=
  xs.foldl (fun m x => Function.update m x.1 x.2) m

theorem assign_append (xs ys : List (κ × ν)) (m : κ → ν) :
    assign (xs ++ ys) m = assign ys (assign xs m) := List.foldl_append

/-- The last value that is assigned to a cell. -/
def last (k : κ) (xs : List (κ × ν)) : Option ν :=
  (xs.filter fun x => x.1 = k).getLast?.map Prod.snd

theorem last_append (k : κ) (xs ys : List (κ × ν)) :
    last k (xs ++ ys) = (last k ys).or (last k xs) := by
  unfold last
  rw [List.filter_append, List.getLast?_append]
  cases (ys.filter fun y => y.1 = k).getLast? <;> rfl

theorem last_singleton (k : κ) (x : κ × ν) : last k [x] = if x.1 = k then some x.2 else none := by
  unfold last
  by_cases h : x.1 = k
  · simp [h]
  · simp [h]

theorem assign_apply (xs : List (κ × ν)) (m : κ → ν) (k : κ) :
    assign xs m k = (last k xs).getD (m k) := by
  induction xs using List.reverseRecOn with
  | nil => rfl
  | append_singleton xs x ih =>
    rw [last_append, last_singleton, assign_append]
    by_cases h : x.1 = k
    · rw [if_pos h, ← h]
      exact Function.update_self ..
    · rw [if_neg h]
      exact (Function.update_of_ne (Ne.symm h) _ _).trans ih

theorem exists_of_last {k : κ} {v : ν} {xs : List (κ × ν)} (h : last k xs = some v) :
    ∃ x ∈ xs, x.1 = k := by
  by_contra hnone
  have hfilter : xs.filter (fun x => x.1 = k) = [] := by
    rw [List.filter_eq_nil_iff]
    intro x hx
    simpa using fun hk => hnone ⟨x, hx, hk⟩
  simp [last, hfilter] at h

theorem last_ne_none {b : Bool} (zs : List (Bool × κ × ν)) {k : κ}
    (h : last k (part b zs) ≠ none) : last k (zs.map Prod.snd) ≠ none := by
  simp only [last, part, ne_eq, Option.map_eq_none_iff, List.getLast?_eq_none_iff,
    List.filter_eq_nil_iff, List.mem_map, not_forall] at h ⊢
  obtain ⟨x, ⟨z, hz, hzx⟩, hx⟩ := h
  exact ⟨x, ⟨z, (List.mem_filter.mp hz).1, hzx⟩, hx⟩

theorem last_eq_of_none {b : Bool} {zs : List (Bool × κ × ν)} {k : κ}
    (h : last k (part b zs) = none) : last k (zs.map Prod.snd) = last k (part (!b) zs) := by
  simp only [last, part, Option.map_eq_none_iff, List.getLast?_eq_none_iff,
    List.filter_eq_nil_iff, List.mem_map] at h
  unfold last part
  congr 2
  rw [List.filter_map, List.filter_map, List.filter_filter]
  congr 1
  refine List.filter_congr fun z hz => ?_
  simp only [Function.comp_apply]
  by_cases hzb : z.1 = b
  · have hk : z.2.1 ≠ k := by
      simpa using h z.2 ⟨z, List.mem_filter.mpr ⟨hz, by simpa using hzb⟩, rfl⟩
    simp [hk]
  · simp [Bool.eq_not_iff.mpr hzb]

/-- Everything that a party has written stands in the end. -/
def Prevails (b : Bool) (zs : List (Bool × κ × ν)) : Prop :=
  ∀ k v, last k (part b zs) = some v → last k (zs.map Prod.snd) = some v

theorem prevails_iff (b : Bool) (zs : List (Bool × κ × ν)) :
    Prevails b zs ↔ ∀ x ∈ part b zs, last x.1 (zs.map Prod.snd) = last x.1 (part b zs) := by
  constructor
  · intro h x hx
    cases hv : last x.1 (part b zs) with
    | none =>
      simp only [last, Option.map_eq_none_iff, List.getLast?_eq_none_iff,
        List.filter_eq_nil_iff] at hv
      exact absurd (decide_eq_true rfl) (hv x hx)
    | some v => exact h x.1 v hv
  · intro h k v hv
    obtain ⟨x, hx, rfl⟩ := exists_of_last hv
    rw [h x hx, hv]

instance [DecidableEq ν] (b : Bool) (zs : List (Bool × κ × ν)) : Decidable (Prevails b zs) :=
  decidable_of_iff _ (prevails_iff b zs).symm

/-- The outcome is that of the parties one after the other, `b` last, exactly if what `b` has
written stands. -/
theorem assign_eq_serial_iff (b : Bool) (zs : List (Bool × κ × ν)) (m : κ → ν) :
    assign (zs.map Prod.snd) m = assign (part (!b) zs ++ part b zs) m ↔ Prevails b zs := by
  constructor
  · intro h k v hv
    obtain ⟨w, hw⟩ := Option.ne_none_iff_exists'.mp
      (last_ne_none zs (by rw [hv]; exact Option.some_ne_none v))
    have hk := congrFun h k
    rw [assign_apply, assign_apply, last_append, hv, hw] at hk
    rw [hw]
    exact congrArg some hk
  · intro h
    funext k
    rw [assign_apply, assign_apply, last_append]
    cases hv : last k (part b zs) with
    | none => rw [last_eq_of_none hv, Option.none_or]
    | some v => rw [h k v hv, Option.some_or]

theorem prevails_of_disjoint {b : Bool} {zs : List (Bool × κ × ν)}
    (h : ∀ x ∈ part b zs, ∀ y ∈ part (!b) zs, x.1 ≠ y.1) : Prevails b zs := by
  intro k v hv
  obtain ⟨x, hx, rfl⟩ := exists_of_last hv
  have hother : last x.1 (part (!b) zs) = none := by
    have hfilter : (part (!b) zs).filter (fun y => y.1 = x.1) = [] := by
      rw [List.filter_eq_nil_iff]
      intro y hy
      simpa using Ne.symm (h x hx y hy)
    simp [last, hfilter]
  rw [last_eq_of_none hother, Bool.not_not, hv]

end Assign

end Interleaving
