import Mathlib.Data.Nat.Count

namespace Vpp.Lib
open Function List

/-- How many keys below `i` a map has. -/
def rank (m : Nat → Option α) (i : Nat) : Nat := Nat.count (fun k => (m k).isSome) i

theorem rank_empty (i : Nat) : rank (fun _ => (none : Option α)) i = 0 := Nat.count_false i

section
variable {m : Nat → Option α} {i j n : Nat} {x : α}

theorem rank_mono (h : i ≤ j) : rank m i ≤ rank m j := Nat.count_monotone _ h

theorem rank_lt (hi : (m i).isSome) (h : i < j) : rank m i < rank m j := Nat.count_strict_mono hi h

theorem rank_update_of_some (hi : (m i).isSome) (x : α) (j : Nat) : rank (update m i (some x)) j = rank m j := by
  have hsame : (fun k => ((update m i (some x)) k).isSome = true) = fun k => (m k).isSome = true := by
    funext k
    by_cases hk : k = i
    · rw [hk, update_self, hi]
      rfl
    · rw [update_of_ne hk]
  simp only [rank, hsame]

theorem rank_update_of_none (hi : m i = none) (x : α) (j : Nat) :
    rank (update m i (some x)) j = rank m j + if i < j then 1 else 0 := by
  induction j with
  | zero => rfl
  | succ j ih =>
    simp only [rank, Nat.count_succ] at ih ⊢
    rw [ih]
    by_cases hj : j = i
    · rw [hj, update_self, hi]
      simp
    · rw [update_of_ne hj]
      have hiff : i < j + 1 ↔ i < j := by omega
      simp only [hiff]
      omega

end

theorem set_insertIdx_self (l : List α) (i : Nat) (x y : α) : (l.insertIdx i x).set i y = l.insertIdx i y := by
  induction i generalizing l with
  | zero => rfl
  | succ i ih =>
    cases l with
    | nil => rfl
    | cons a l => rw [insertIdx_succ_cons, insertIdx_succ_cons, set_cons_succ, ih]

/-- The values of a map below `n`, in the order of their keys. -/
structure Ranked (elts : List α) (m : Nat → Option α) (n : Nat) : Prop where
  length_eq : elts.length = rank m n
  getElem_rank : ∀ i x, i < n → m i = some x → elts[rank m i]? = some x

namespace Ranked

theorem empty (n : Nat) : Ranked [] (fun _ => (none : Option α)) n :=
  ⟨(rank_empty n).symm, fun _ _ _ h => absurd h.symm (Option.some_ne_none _)⟩

variable {elts : List α} {m : Nat → Option α} {i n : Nat}

theorem set (h : Ranked elts m n) (hin : i < n) (hi : (m i).isSome) (x : α) :
    Ranked (elts.set (rank m i) x) (update m i (some x)) n := by
  refine ⟨?_, ?_⟩
  · rw [length_set, h.length_eq, rank_update_of_some hi]
  · intro k y hk hy
    rw [rank_update_of_some hi]
    by_cases hki : k = i
    · rw [hki, update_self] at hy
      rw [hki, getElem?_set_self (h.length_eq ▸ rank_lt hi hin), hy]
    · rw [update_of_ne hki] at hy
      have hne : rank m i ≠ rank m k := fun heq => hki (Nat.count_injective hi (hy ▸ rfl) heq).symm
      rw [getElem?_set_ne hne]
      exact h.getElem_rank k y hk hy

theorem insert (h : Ranked elts m n) (hin : i < n) (hi : m i = none) (x : α) :
    Ranked (elts.insertIdx (rank m i) x) (update m i (some x)) n := by
  have hle : rank m i ≤ elts.length := h.length_eq ▸ rank_mono (Nat.le_of_lt hin)
  refine ⟨?_, ?_⟩
  · rw [length_insertIdx_of_le_length hle, h.length_eq, rank_update_of_none hi, if_pos hin]
  · intro k y hk hy
    rw [rank_update_of_none hi]
    rcases Nat.lt_trichotomy i k with hik | hik | hik
    · rw [update_of_ne (Nat.ne_of_gt hik)] at hy
      rw [if_pos hik, getElem?_insertIdx_of_gt (Nat.lt_succ_of_le (rank_mono (Nat.le_of_lt hik))),
        Nat.succ_sub_one]
      exact h.getElem_rank k y hk hy
    · subst hik
      rw [update_self] at hy
      rw [if_neg (Nat.lt_irrefl _), Nat.add_zero, getElem?_insertIdx_self, if_pos hle, hy]
    · rw [update_of_ne (Nat.ne_of_lt hik)] at hy
      rw [if_neg (Nat.lt_asymm hik), Nat.add_zero, getElem?_insertIdx_of_lt (rank_lt (hy ▸ rfl) hik)]
      exact h.getElem_rank k y hk hy

end Ranked

end Vpp.Lib
