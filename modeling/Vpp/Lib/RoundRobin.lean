import Mathlib.Data.Int.CardIntervalMod
import Mathlib.Data.List.GetD

namespace Vpp.Lib
open List

/-- The element whose turn it is at the `k`-th draw from a list that is gone through again and again. -/
def turn (xs : List α) (d : α) (k : Nat) : α := xs.getD (k % xs.length) d

/-- The first `n` draws. -/
def turns (xs : List α) (d : α) (n : Nat) : List α := (List.range n).map (turn xs d)

theorem turn_mem {xs : List α} (h : xs ≠ []) (d : α) (k : Nat) : turn xs d k ∈ xs := by
  have hk : k % xs.length < xs.length := Nat.mod_lt _ (length_pos_iff.2 h)
  rw [turn, getD_eq_getElem _ _ hk]
  exact getElem_mem hk

theorem turn_eq_iff {xs : List α} (nodup : xs.Nodup) (d : α) {i : Nat} (hi : i < xs.length) (k : Nat) :
    turn xs d k = xs[i] ↔ k ≡ i [MOD xs.length] := by
  have hk : k % xs.length < xs.length := Nat.mod_lt _ (by omega)
  rw [turn, getD_eq_getElem _ _ hk, nodup.getElem_inj_iff, Nat.ModEq, Nat.mod_eq_of_lt hi]

theorem count_map_range [DecidableEq α] (f : Nat → α) (u : α) (n : Nat) :
    ((List.range n).map f).count u = n.count (fun k => f k = u) := by
  induction n with
  | zero => rfl
  | succ n ih =>
    rw [range_succ, map_append, count_append, ih, Nat.count_succ]
    by_cases h : f n = u
    · simp [h]
    · simp [h]

theorem count_turns [DecidableEq α] {xs : List α} (nodup : xs.Nodup) (d : α) {i : Nat} (hi : i < xs.length)
    (n : Nat) : (turns xs d n).count xs[i]
      = n / xs.length + if i % xs.length < n % xs.length then 1 else 0 := by
  have hlen : 0 < xs.length := by omega
  rw [turns, count_map_range, ← Nat.count_modEq_card n hlen i]
  simp only [turn_eq_iff nodup d hi]

theorem count_turns_le [DecidableEq α] {xs : List α} (nodup : xs.Nodup) (d : α) {u v : α} (hu : u ∈ xs)
    (hv : v ∈ xs) (n : Nat) : (turns xs d n).count u ≤ (turns xs d n).count v + 1 := by
  obtain ⟨i, hi, rfl⟩ := getElem_of_mem hu
  obtain ⟨j, hj, rfl⟩ := getElem_of_mem hv
  rw [count_turns nodup d hi, count_turns nodup d hj]
  split <;> split <;> omega

end Vpp.Lib
