import Mathlib.Tactic
import Mathlib.Data.Finmap

/-!
# Buffers with reference counts

Buffers on a heap, each with a count of the references to it, and chained to another one or not. To
release a buffer is to take one off its count; at zero it goes back to the heap, and the buffer
behind it is released (`free`). To chain a buffer behind another one takes a reference to it
(`link`).

`free_link`: a new buffer to which another one is chained, and which is released, leaves the heap as
it was.
-/

namespace RefHeap

/-- A buffer. -/
structure Buf (β : Type) where
  ref : ℕ
  next : Option ℕ
  payload : β

/-- The buffers in use. -/
abbrev Heap (β : Type) : Type := Finmap fun _ : ℕ => Buf β

variable {β : Type}

theorem card_erase_lt {h : Heap β} {p : ℕ} {b : Buf β} (hp : h.lookup p = some b) :
    (h.erase p).keys.card < h.keys.card := by
  rw [Finmap.keys_erase]
  exact Finset.card_erase_lt_of_mem (Finmap.mem_keys.mpr (Finmap.mem_of_lookup_eq_some hp))

/-- A buffer and those behind it. -/
def chain (h : Heap β) (p : ℕ) : List (ℕ × Buf β) :=
  match _hp : h.lookup p with
  | none => []
  | some b =>
    (p, b) :: match b.next with
      | none => []
      | some q => chain (h.erase p) q
termination_by h.keys.card
decreasing_by exact card_erase_lt _hp

/-- A buffer is released. -/
def free (h : Heap β) (p : ℕ) : Heap β :=
  match _hp : h.lookup p with
  | none => h
  | some b =>
    if 1 < b.ref then h.insert p { b with ref := b.ref - 1 }
    else
      match b.next with
      | none => h.erase p
      | some q => free (h.erase p) q
termination_by h.keys.card
decreasing_by exact card_erase_lt _hp

/-- `t` is chained behind the last of the buffers at `p`, which takes a reference to it. -/
def link (h : Heap β) (p t : ℕ) : Heap β :=
  match (chain h p).getLast?, h.lookup t with
  | some (l, b), some bt =>
    (h.insert l { b with next := some t }).insert t { bt with ref := bt.ref + 1 }
  | _, _ => h

/-- The number of references to a buffer. -/
def refs (h : Heap β) (p : ℕ) : ℕ := (h.lookup p).elim 0 Buf.ref

/-- Buffers that arrive in one chain, each with one reference to it. -/
def store (h : Heap β) : List (ℕ × β) → Heap β
  | [] => h
  | (p, x) :: l => (store h l).insert p ⟨1, (l.head?).map Prod.fst, x⟩

variable {h : Heap β} {p q t : ℕ} {b : Buf β}

theorem free_of_lt (hp : h.lookup p = some b) (hb : 1 < b.ref) :
    free h p = h.insert p { b with ref := b.ref - 1 } := by
  rw [free]
  split
  · rename_i hnone
    rw [hp] at hnone
    cases hnone
  · rename_i b' hsome
    obtain rfl : b' = b := Option.some.inj (hsome.symm.trans hp)
    rw [if_pos hb]

theorem free_of_last (hp : h.lookup p = some b) (hb : b.ref ≤ 1) (hq : b.next = some q) :
    free h p = free (h.erase p) q := by
  rw [free]
  split
  · rename_i hnone
    rw [hp] at hnone
    cases hnone
  · rename_i b' hsome
    obtain rfl : b' = b := Option.some.inj (hsome.symm.trans hp)
    rw [if_neg (by omega), hq]

theorem chain_of_last (hp : h.lookup p = some b) (hq : b.next = none) : chain h p = [(p, b)] := by
  rw [chain]
  split
  · rename_i hnone
    rw [hp] at hnone
    cases hnone
  · rename_i b' hsome
    obtain rfl : b' = b := Option.some.inj (hsome.symm.trans hp)
    rw [hq]

theorem chain_of_next (hp : h.lookup p = some b) (hq : b.next = some q) :
    chain h p = (p, b) :: chain (h.erase p) q := by
  rw [chain]
  split
  · rename_i hnone
    rw [hp] at hnone
    cases hnone
  · rename_i b' hsome
    obtain rfl : b' = b := Option.some.inj (hsome.symm.trans hp)
    rw [hq]

theorem link_of_last (hp : h.lookup p = some b) (hq : b.next = none) {bt : Buf β}
    (ht : h.lookup t = some bt) : link h p t =
      (h.insert p { b with next := some t }).insert t { bt with ref := bt.ref + 1 } := by
  unfold link
  rw [chain_of_last hp hq, ht]
  rfl

/-- **A new buffer with a chain behind it.** Once it is released, the heap is as before. -/
theorem free_link (hq : q ∉ h) (ht : 0 < refs h t) (x : β) :
    free (link (h.insert q ⟨1, none, x⟩) q t) q = h := by
  obtain ⟨bt, hbt⟩ : ∃ bt, h.lookup t = some bt := by
    unfold refs at ht
    cases hl : h.lookup t with
    | none => simp [hl] at ht
    | some bt => exact ⟨bt, rfl⟩
  have hpos : 0 < bt.ref := by simpa [refs, hbt] using ht
  have hne : t ≠ q := by
    rintro rfl
    exact hq (Finmap.mem_of_lookup_eq_some hbt)
  have hnew : (h.insert q ⟨1, none, x⟩).lookup q = some ⟨1, none, x⟩ := Finmap.lookup_insert _
  have hold : (h.insert q ⟨1, none, x⟩).lookup t = some bt :=
    (Finmap.lookup_insert_of_ne _ hne).trans hbt
  rw [link_of_last hnew rfl hold]
  -- the new buffer goes back to the heap, and the one behind it loses the reference it had gained
  have hhead : (((h.insert q ⟨1, none, x⟩).insert q ⟨1, some t, x⟩).insert t
      { bt with ref := bt.ref + 1 }).lookup q = some ⟨1, some t, x⟩ := by
    rw [Finmap.lookup_insert_of_ne _ hne.symm, Finmap.lookup_insert]
  rw [free_of_last hhead le_rfl rfl]
  have htail : ((((h.insert q ⟨1, none, x⟩).insert q ⟨1, some t, x⟩).insert t
      { bt with ref := bt.ref + 1 }).erase q).lookup t = some { bt with ref := bt.ref + 1 } := by
    rw [Finmap.lookup_erase_ne hne, Finmap.lookup_insert]
  rw [free_of_lt htail (by show 1 < bt.ref + 1; omega)]
  apply Finmap.ext_lookup
  intro i
  by_cases hi : i = t
  · subst hi
    rw [Finmap.lookup_insert, hbt]
    rfl
  · rw [Finmap.lookup_insert_of_ne _ hi]
    by_cases hiq : i = q
    · subst hiq
      rw [Finmap.lookup_erase, Finmap.lookup_eq_none.mpr hq]
    · rw [Finmap.lookup_erase_ne hiq, Finmap.lookup_insert_of_ne _ hi,
        Finmap.lookup_insert_of_ne _ hiq, Finmap.lookup_insert_of_ne _ hiq]

theorem lookup_store {l : List (ℕ × β)} (hi : p ∉ l.map Prod.fst) :
    (store h l).lookup p = h.lookup p := by
  induction l with
  | nil => rfl
  | cons x l ih =>
    obtain ⟨q, x⟩ := x
    rw [List.map_cons, List.mem_cons, not_or] at hi
    rw [store, Finmap.lookup_insert_of_ne _ hi.1, ih hi.2]

theorem refs_store_head (l : List (ℕ × β)) (x : β) : refs (store h ((p, x) :: l)) p = 1 := by
  unfold refs
  rw [store, Finmap.lookup_insert]
  rfl

theorem erase_insert (hp : p ∉ h) (b : Buf β) : (h.insert p b).erase p = h := by
  apply Finmap.ext_lookup
  intro i
  by_cases hi : i = p
  · subst hi
    rw [Finmap.lookup_erase, Finmap.lookup_eq_none.mpr hp]
  · rw [Finmap.lookup_erase_ne hi, Finmap.lookup_insert_of_ne _ hi]

theorem not_mem_store {l : List (ℕ × β)} (hi : p ∉ l.map Prod.fst) (hp : p ∉ h) :
    p ∉ store h l := by
  rw [← Finmap.lookup_eq_none, lookup_store hi]
  exact Finmap.lookup_eq_none.mpr hp

theorem chain_store {l : List (ℕ × β)} {x : β} (hnodup : (((p, x) :: l).map Prod.fst).Nodup)
    (hfresh : ∀ i ∈ ((p, x) :: l).map Prod.fst, i ∉ h) :
    (chain (store h ((p, x) :: l)) p).map (fun b => b.2.payload) = x :: l.map Prod.snd := by
  induction l generalizing p x with
  | nil =>
    have hhead : (store h [(p, x)]).lookup p = some ⟨1, none, x⟩ := Finmap.lookup_insert _
    rw [chain_of_last hhead rfl]
    rfl
  | cons y l ih =>
    obtain ⟨q, y⟩ := y
    rw [List.map_cons, List.nodup_cons] at hnodup
    rw [List.map_cons, List.forall_mem_cons] at hfresh
    have hhead : (store h ((p, x) :: (q, y) :: l)).lookup p = some ⟨1, some q, x⟩ :=
      Finmap.lookup_insert _
    rw [chain_of_next hhead rfl, store, erase_insert (not_mem_store hnodup.1 hfresh.1),
      List.map_cons, ih hnodup.2 hfresh.2]
    rfl

theorem card_store {l : List (ℕ × β)} (hnodup : (l.map Prod.fst).Nodup)
    (hfresh : ∀ p ∈ l.map Prod.fst, p ∉ h) :
    (store h l).keys.card = h.keys.card + l.length := by
  induction l with
  | nil => rfl
  | cons x l ih =>
    obtain ⟨p, x⟩ := x
    rw [List.map_cons, List.nodup_cons] at hnodup
    rw [List.map_cons, List.forall_mem_cons] at hfresh
    have hnew : p ∉ (store h l).keys := fun hmem =>
      not_mem_store hnodup.1 hfresh.1 (Finmap.mem_keys.mp hmem)
    have hkeys : (store h ((p, x) :: l)).keys = insert p (store h l).keys := by
      ext i
      rw [Finset.mem_insert, Finmap.mem_keys, store, Finmap.mem_insert, Finmap.mem_keys]
    rw [hkeys, Finset.card_insert_of_notMem hnew, ih hnodup.2 hfresh.2, List.length_cons]
    omega

end RefHeap
