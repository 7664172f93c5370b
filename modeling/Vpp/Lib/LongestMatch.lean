import Mathlib.Data.Finset.Sort

namespace Vpp.Lib
open List

section

variable {P : Nat → Prop} {lo mid hi k : Nat} {r : Option Nat}

/-- The first number from `lo` on and before `hi` that has the property, if one has it. -/
def FirstIn (P : Nat → Prop) (lo hi : Nat) : Option Nat → Prop
  | some k => IsLeast {j | lo ≤ j ∧ P j} k ∧ k < hi
  | none => ∀ j, lo ≤ j → j < hi → ¬ P j

theorem FirstIn.of_some (h : FirstIn P lo mid (some k)) (hle : mid ≤ hi) : FirstIn P lo hi (some k) :=
  ⟨h.1, h.2.trans_le hle⟩

theorem FirstIn.after_none (h : FirstIn P lo mid none) (hr : FirstIn P mid hi r) (hle : lo ≤ mid) :
    FirstIn P lo hi r := by
  cases r with
  | none =>
    intro j hlo hhi
    rcases Nat.lt_or_ge j mid with hlt | hge
    · exact h j hlo hlt
    · exact hr j hge hhi
  | some k =>
    obtain ⟨⟨⟨hmid, hk⟩, hmin⟩, hhi⟩ := hr
    refine ⟨⟨⟨hle.trans hmid, hk⟩, ?_⟩, hhi⟩
    intro j hj
    rcases Nat.lt_or_ge j mid with hlt | hge
    · exact absurd hj.2 (h j hj.1 hlt)
    · exact hmin ⟨hge, hj.2⟩

theorem FirstIn.eq_some_iff (h : FirstIn P lo hi r) : r = some k ↔ IsLeast {j | lo ≤ j ∧ P j} k ∧ k < hi := by
  cases r with
  | none =>
    constructor
    · exact fun he => absurd he.symm (Option.some_ne_none k)
    · exact fun hk => absurd hk.1.1.2 (h k hk.1.1.1 hk.2)
  | some m =>
    rw [Option.some_inj]
    constructor
    · intro he
      exact he ▸ h
    · exact fun hk => h.1.unique hk.1

theorem FirstIn.eq_none_iff (h : FirstIn P lo hi r) : r = none ↔ ∀ j, lo ≤ j → j < hi → ¬ P j := by
  cases r with
  | none => exact iff_of_true rfl h
  | some k =>
    refine iff_of_false (Option.some_ne_none k) ?_
    intro hnone
    exact hnone k h.1.1.1 h.2 h.1.1.2

theorem FirstIn.unique {r' : Option Nat} (h : FirstIn P lo hi r) (h' : FirstIn P lo hi r') : r = r' := by
  cases r with
  | none => exact (h'.eq_none_iff.mpr h).symm
  | some k => exact (h'.eq_some_iff.mpr h).symm

end

variable {find : Nat → Option β} {order : List Nat} {top : Nat}

/-- What is found at the greatest length up to `top` with something to find. -/
def IsLongest (find : Nat → Option β) (top : Nat) : Option β → Prop
  | some b => ∃ n ≤ top, find n = some b ∧ ∀ k, n < k → k ≤ top → find k = none
  | none => ∀ n ≤ top, find n = none

theorem IsLongest.unique (h : IsLongest find top r) (h' : IsLongest find top r') : r = r' := by
  cases r with
  | none =>
    cases r' with
    | none => rfl
    | some b =>
      obtain ⟨n, hn, hb, _⟩ := h'
      exact absurd (h n hn) (by simp [hb])
  | some a =>
    obtain ⟨n, hn, ha, hmax⟩ := h
    cases r' with
    | none => exact absurd (h' n hn) (by simp [ha])
    | some b =>
      obtain ⟨k, hk, hb, hmax'⟩ := h'
      obtain hlt | rfl | hgt := Nat.lt_trichotomy n k
      · exact absurd (hmax k hlt hk) (by simp [hb])
      · exact ha.symm.trans hb
      · exact absurd (hmax' n hgt hn) (by simp [ha])

theorem IsLongest.retop (h : IsLongest find top r) (hover : ∀ n, top < n → find n = none)
    (hout : ∀ n, top' < n → find n = none) : IsLongest find top' r := by
  cases r with
  | none =>
    intro n _
    by_cases hn : n ≤ top
    · exact h n hn
    · exact hover n (Nat.not_le.mp hn)
  | some b =>
    obtain ⟨n, hn, hb, hmax⟩ := h
    refine ⟨n, ?_, hb, ?_⟩
    · by_contra hlt
      rw [hout n (Nat.not_le.mp hlt)] at hb
      cases hb
    · intro k hk _
      by_cases hkt : k ≤ top
      · exact hmax k hk hkt
      · exact hover k (Nat.not_le.mp hkt)

theorem isLongest_findSome? (hsorted : order.Pairwise (· > ·)) (hle : ∀ n ∈ order, n ≤ top)
    (hall : ∀ n ≤ top, n ∉ order → find n = none) : IsLongest find top (order.findSome? find) := by
  cases hres : order.findSome? find with
  | none =>
    intro n hn
    by_cases hm : n ∈ order
    · exact findSome?_eq_none_iff.mp hres n hm
    · exact hall n hn hm
  | some b =>
    obtain ⟨xs, n, ys, rfl, hb, hxs⟩ := findSome?_eq_some_iff.mp hres
    refine ⟨n, hle n (mem_append_right xs mem_cons_self), hb, ?_⟩
    intro k hnk hk
    by_cases hm : k ∈ xs ++ n :: ys
    · obtain hm | hm := mem_append.mp hm
      · exact hxs k hm
      · obtain ⟨-, hrest, -⟩ := pairwise_append.mp hsorted
        obtain rfl | hm := mem_cons.mp hm
        · exact absurd hnk (Nat.lt_irrefl _)
        · exact absurd ((pairwise_cons.mp hrest).1 k hm) (Nat.lt_asymm hnk)
    · exact hall k hk hm

theorem mem_dropWhile_iff {l n : Nat} (hsorted : order.Pairwise (· > ·)) :
    n ∈ order.dropWhile (l < ·) ↔ n ∈ order ∧ n ≤ l := by
  induction order with
  | nil => simp
  | cons x xs ih =>
    obtain ⟨hx, hrest⟩ := pairwise_cons.mp hsorted
    rw [dropWhile_cons]
    by_cases hlt : l < x
    · rw [if_pos (decide_eq_true hlt), ih hrest, mem_cons]
      constructor
      · intro ⟨hm, hle⟩
        exact ⟨.inr hm, hle⟩
      · intro ⟨hm, hle⟩
        refine ⟨hm.resolve_left ?_, hle⟩
        rintro rfl
        exact absurd hle (Nat.not_le.mpr hlt)
    · rw [if_neg (by simpa using hlt)]
      constructor
      · intro hm
        refine ⟨hm, ?_⟩
        obtain rfl | hm := mem_cons.mp hm
        · exact Nat.not_lt.mp hlt
        · exact (Nat.le_of_lt (hx n hm)).trans (Nat.not_lt.mp hlt)
      · exact fun h => h.1

def searchOrder (w : Nat) (bitmap : Finset Nat) : List Nat := (bitmap.sort (· ≤ ·)).map (w - ·)

theorem mem_searchOrder (hle : ∀ i ∈ bitmap, i ≤ w) : n ∈ searchOrder w bitmap ↔ n ≤ w ∧ w - n ∈ bitmap := by
  rw [searchOrder, List.mem_map]
  constructor
  · intro ⟨i, hi, he⟩
    have hi := (Finset.mem_sort _).mp hi
    have hiw := hle i hi
    refine ⟨by omega, ?_⟩
    rwa [show w - n = i by omega]
  · intro ⟨hn, hm⟩
    exact ⟨w - n, (Finset.mem_sort _).mpr hm, Nat.sub_sub_self hn⟩

theorem pairwise_searchOrder (hle : ∀ i ∈ bitmap, i ≤ w) : (searchOrder w bitmap).Pairwise (· > ·) := by
  rw [searchOrder, pairwise_map]
  have hsorted : (bitmap.sort (· ≤ ·)).Pairwise (· < ·) := (Finset.sortedLT_sort bitmap).pairwise
  apply hsorted.imp_of_mem
  intro i j _ hj hij
  have hjw := hle j ((Finset.mem_sort _).mp hj)
  show w - j < w - i
  omega

end Vpp.Lib
