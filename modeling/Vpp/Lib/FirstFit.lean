import Mathlib.Order.Interval.Finset.Nat

namespace Vpp.Lib
open List

/-- All items find a place among the first `e` from their hashes on, when the places `s` are taken before. -/
inductive Fits (e : Nat) : Set Nat → List Nat → Prop where
  | nil (s : Set Nat) : Fits e s []
  | cons (hk : k < e) (hfull : ∀ j < k, h + j ∈ s) (hfree : h + k ∉ s) (hrest : Fits e (insert (h + k) s) hs) :
    Fits e s (h :: hs)

def firstFree (busy : Nat → Bool) (h e : Nat) : Option Nat := (List.range e).find? fun k => !busy (h + k)

theorem firstFree_eq_some_iff : firstFree busy h e = some k ↔
    k < e ∧ (∀ j < k, busy (h + j) = true) ∧ busy (h + k) = false := by
  rw [firstFree, find?_range_eq_some]
  simp only [Bool.not_eq_eq_eq_not, Bool.not_true, mem_range]
  constructor
  · intro ⟨hfree, hk, hfull⟩
    exact ⟨hk, fun j hj => by simpa using hfull j hj, hfree⟩
  · intro ⟨hk, hfull, hfree⟩
    exact ⟨hfree, hk, fun j hj => by simpa using hfull j hj⟩

theorem Fits.cons_iff (s : Set Nat) : Fits e s (h :: hs) ↔
    ∃ k, (k < e ∧ (∀ j < k, h + j ∈ s) ∧ h + k ∉ s) ∧ Fits e (insert (h + k) s) hs := by
  constructor
  · intro hf
    cases hf with
    | cons hk hfull hfree hrest => exact ⟨_, ⟨hk, hfull, hfree⟩, hrest⟩
  · intro ⟨k, ⟨hk, hfull, hfree⟩, hrest⟩
    exact .cons hk hfull hfree hrest

open Classical in
noncomputable def taken (s : Set Nat) (h e : Nat) : Finset Nat := (Finset.Ico h (h + e)).filter (· ∈ s)

theorem mem_taken_iff : i ∈ taken s h e ↔ (h ≤ i ∧ i < h + e) ∧ i ∈ s := by
  simp only [taken, Finset.mem_filter, Finset.mem_Ico]

theorem card_taken_le (s : Set Nat) (h e : Nat) : (taken s h e).card ≤ e := by
  have hsub : taken s h e ⊆ Finset.Ico h (h + e) := by
    intro i hi
    exact Finset.mem_Ico.mpr (mem_taken_iff.mp hi).1
  have hle := Finset.card_le_card hsub
  rwa [Nat.card_Ico, Nat.add_sub_cancel_left] at hle

theorem taken_subset (s : Set Nat) (x h e : Nat) : taken s h e ⊆ taken (insert x s) h e := by
  intro i hi
  rw [mem_taken_iff] at hi ⊢
  exact ⟨hi.1, Set.mem_insert_of_mem x hi.2⟩

theorem Fits.count_le (hf : Fits e s hs) (h : Nat) : hs.count h + (taken s h e).card ≤ e := by
  induction hf with
  | nil s =>
    rw [count_nil, Nat.zero_add]
    exact card_taken_le s h e
  | @cons k s h' hs hk hfull hfree hrest ih =>
    have hsub := taken_subset s (h' + k) h e
    rw [count_cons]
    split_ifs with heq
    · have heq : h' = h := by simpa using heq
      have hlt : (taken s h e).card < (taken (insert (h' + k) s) h e).card := by
        apply Finset.card_lt_card
        apply (Finset.ssubset_iff_of_subset hsub).mpr
        use h' + k
        rw [mem_taken_iff, mem_taken_iff]
        exact ⟨⟨by omega, Set.mem_insert _ s⟩, fun hm => hfree hm.2⟩
      omega
    · have hle := Finset.card_le_card hsub
      omega

def between (hs : List Nat) (q p : Nat) : Nat := hs.countP fun h => q ≤ h ∧ h ≤ p

/-- No stretch of places that ends with `p` is as short as the number of hashes in it. -/
def Vacant (hs : List Nat) (p : Nat) : Prop := ∀ q, q ≤ p → between hs q p ≤ p - q

/-- There is a vacant place among the first `e` from each hash on, whatever hashes come before it. -/
def Room (e : Nat) (hs : List Nat) : Prop :=
  ∀ pre h suf, hs = pre ++ h :: suf → ∃ k, k < e ∧ Vacant pre (h + k)

theorem between_concat (hs : List Nat) (h q p : Nat) :
    between (hs ++ [h]) q p = between hs q p + if q ≤ h ∧ h ≤ p then 1 else 0 := by
  rw [between, countP_append, between, countP_singleton]
  simp only [decide_eq_true_eq]

theorem between_split (hs : List Nat) (hqm : q ≤ m) (hmp : m ≤ p) :
    between hs q p = between hs q m + between hs (m + 1) p := by
  induction hs with
  | nil => rfl
  | cons h hs ih =>
    simp only [between, countP_cons, decide_eq_true_eq] at ih ⊢
    rw [ih]
    split_ifs <;> omega

theorem not_vacant_iff : ¬ Vacant hs p ↔ ∃ q, q ≤ p ∧ p - q < between hs q p := by
  simp only [Vacant, not_forall, Nat.not_le, exists_prop]

/-- Places without a gap are one stretch with the places below that its hashes come from. -/
theorem exists_stretch (hlt : h < f) (hfull : ∀ p, h ≤ p → p < f → ¬ Vacant hs p) :
    ∃ q, q ≤ h ∧ f - q ≤ between hs q (f - 1) := by
  induction f using Nat.strong_induction_on with
  | h f ih =>
    obtain ⟨q, hq, hmany⟩ := not_vacant_iff.mp (hfull (f - 1) (by omega) (by omega))
    by_cases hqh : q ≤ h
    · exact ⟨q, hqh, by omega⟩
    · obtain ⟨q', hq', hmany'⟩ := ih q (by omega) (by omega) fun p hp hpq => hfull p hp (by omega)
      have hsplit := between_split hs (q := q') (m := q - 1) (p := f - 1) (by omega) (by omega)
      rw [Nat.sub_add_cancel (by omega)] at hsplit
      exact ⟨q', hq', by omega⟩

/-- The first place from a hash on that was vacant is the only one that the hash takes. -/
theorem vacant_concat_iff (hfull : ∀ j, j < k → ¬ Vacant hs (h + j)) (hfree : Vacant hs (h + k)) :
    ¬ Vacant (hs ++ [h]) p ↔ p = h + k ∨ ¬ Vacant hs p := by
  have hfull' (p : Nat) (hp : h ≤ p) (hlt : p < h + k) : ¬ Vacant hs p := by
    have hat := hfull (p - h) (by omega)
    rwa [Nat.add_sub_cancel' hp] at hat
  constructor
  · intro hnot
    obtain ⟨q, hq, hmany⟩ := not_vacant_iff.mp hnot
    rw [or_iff_not_imp_right, not_not]
    intro hvacant
    rw [between_concat] at hmany
    have hle := hvacant q hq
    have hin : q ≤ h ∧ h ≤ p := by
      by_contra hout
      rw [if_neg hout] at hmany
      omega
    rw [if_pos hin] at hmany
    have hbelow : h + k ≤ p := by
      by_contra hlt
      exact hfull' p hin.2 (by omega) hvacant
    -- Behind a vacant place the hashes of the stretch fill what is left of it.
    by_contra hne
    have hsplit := between_split hs (q := q) (m := h + k) (p := p) (by omega) hbelow
    have hfirst := hfree q (by omega)
    have hlast := hvacant (h + k + 1) (by omega)
    omega
  · rintro (rfl | hnot)
    · rw [not_vacant_iff]
      cases k with
      | zero =>
        refine ⟨h, Nat.le_refl _, ?_⟩
        rw [between_concat, if_pos ⟨Nat.le_refl _, Nat.le_refl _⟩]
        omega
      | succ k =>
        obtain ⟨q, hq, hmany⟩ := exists_stretch (by omega) hfull'
        have hsplit := between_split hs (q := q) (m := h + k) (p := h + (k + 1)) (by omega) (by omega)
        rw [show h + (k + 1) - 1 = h + k from rfl] at hmany
        refine ⟨q, by omega, ?_⟩
        rw [between_concat, if_pos ⟨hq, by omega⟩]
        omega
    · obtain ⟨q, hq, hmany⟩ := not_vacant_iff.mp hnot
      rw [not_vacant_iff]
      refine ⟨q, hq, ?_⟩
      rw [between_concat]
      omega

theorem room_cons_iff : (∀ pre' h' suf, h :: hs = pre' ++ h' :: suf → ∃ k, k < e ∧ Vacant (pre ++ pre') (h' + k)) ↔
    (∃ k, k < e ∧ Vacant pre (h + k)) ∧
      ∀ pre' h' suf, hs = pre' ++ h' :: suf → ∃ k, k < e ∧ Vacant (pre ++ [h] ++ pre') (h' + k) := by
  constructor
  · intro hall
    refine ⟨by simpa using hall [] h hs rfl, ?_⟩
    intro pre' h' suf he
    simpa using hall (h :: pre') h' suf (by rw [he, List.cons_append])
  · intro ⟨hhead, hrest⟩ pre' h' suf he
    cases pre' with
    | nil =>
      obtain ⟨rfl, rfl⟩ := List.cons.inj he
      simpa using hhead
    | cons x pre' =>
      obtain ⟨rfl, hrest'⟩ := List.cons.inj he
      simpa using hrest pre' h' suf hrest'

theorem fits_iff_room_from (pre : List Nat) : Fits e { p | ¬ Vacant pre p } hs ↔
    ∀ pre' h suf, hs = pre' ++ h :: suf → ∃ k, k < e ∧ Vacant (pre ++ pre') (h + k) := by
  induction hs generalizing pre with
  | nil => exact iff_of_true (.nil _) fun pre' h suf he => by simp at he
  | cons h hs ih =>
    have hset {k : Nat} (hfull : ∀ j, j < k → ¬ Vacant pre (h + j)) (hfree : Vacant pre (h + k)) :
        insert (h + k) { p | ¬ Vacant pre p } = { p | ¬ Vacant (pre ++ [h]) p } := by
      ext p
      exact (vacant_concat_iff hfull hfree).symm
    rw [Fits.cons_iff, room_cons_iff, ← ih]
    constructor
    · intro ⟨k, ⟨hk, hfull, hfree⟩, hrest⟩
      have hfree := not_not.mp hfree
      exact ⟨⟨k, hk, hfree⟩, hset hfull hfree ▸ hrest⟩
    · intro ⟨hsome, hrest⟩
      classical
      let k := Nat.find hsome
      obtain ⟨hk, hfree⟩ : k < e ∧ Vacant pre (h + k) := Nat.find_spec hsome
      have hfull (j : Nat) (hj : j < k) : ¬ Vacant pre (h + j) :=
        fun hv => Nat.find_min hsome hj ⟨hj.trans hk, hv⟩
      exact ⟨k, ⟨hk, hfull, not_not.mpr hfree⟩, (hset hfull hfree).symm ▸ hrest⟩

/-- Items find places one after another just when the hashes leave room for each. -/
theorem fits_iff_room : Fits e ∅ hs ↔ Room e hs := by
  have hempty : { p | ¬ Vacant [] p } = ∅ := by
    ext p
    simp [Vacant, between]
  rw [← hempty, fits_iff_room_from]
  rfl

end Vpp.Lib
