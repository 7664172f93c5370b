import Vpp.Ip.Ip6Format

namespace Vpp.Ip
open Vpp.Lib Vpp.Infra List

/-- `r` groups from the place `k` on are zero. -/
def ZeroAt (quads : List (BitVec 16)) (k r : Nat) : Prop := ∀ j, k ≤ j → j < k + r → quads[j]? = some 0

theorem ZeroAt.le_length (h : ZeroAt quads k r) (hr : 0 < r) : k + r ≤ quads.length := by
  have hlast := h (k + r - 1) (by omega) (by omega)
  have := (List.getElem?_eq_some_iff.1 hlast).1
  omega

theorem ZeroAt.append (h : ZeroAt quads k r) (more : List (BitVec 16)) : ZeroAt (quads ++ more) k r :=
  fun j hk hj => by
    have hj' := h j hk hj
    rw [getElem?_append_left (List.getElem?_eq_some_iff.1 hj').1]
    exact hj'

theorem ZeroAt.of_append (h : ZeroAt (quads ++ more) k r) (hr : k + r ≤ quads.length) : ZeroAt quads k r :=
  fun j hk hj => by
    have hj' := h j hk hj
    rwa [getElem?_append_left (by omega)] at hj'

theorem ZeroAt.of_snoc (h : ZeroAt (quads ++ [q]) k r) (hq : q ≠ 0) (hr : 0 < r) : k + r ≤ quads.length := by
  have hle := h.le_length hr
  rw [length_append, length_singleton] at hle
  cases Nat.lt_or_eq_of_le hle with
  | inl hlt => omega
  | inr heq =>
    have hlast := h quads.length (by omega) (by omega)
    rw [getElem?_concat_length] at hlast
    exact absurd (Option.some.inj hlast) hq

theorem ZeroAt.snoc (h : ZeroAt quads k r) (hr : k + r = quads.length) : ZeroAt (quads ++ [0]) k (r + 1) :=
  fun j hk hj => by
    cases Nat.lt_or_eq_of_le (show j ≤ quads.length by omega) with
    | inl hlt => exact h.append [0] j hk (by omega)
    | inr heq => rw [heq, getElem?_concat_length]

structure LongestRun (quads : List (BitVec 16)) (index : Option Nat) (run : Nat) : Prop where
  isRun : ∀ k, index = some k → 1 < run ∧ ZeroAt quads k run
  noRun : index = none → run = 0
  longest : ∀ k r, 1 < r → ZeroAt quads k r → r ≤ run ∧ (r = run → ∀ m, index = some m → m ≤ k)

/-- The state after `quads`: a closed run, and the zeros at the end as the run being read. -/
structure ZeroRuns.Scanned (z : ZeroRuns) (quads : List (BitVec 16)) : Prop where
  isRun : ∀ k, z.maxZeroRunIndex = some k → 1 < z.maxZeroRun ∧ ZeroAt quads k z.maxZeroRun
  noRun : z.maxZeroRunIndex = none → z.maxZeroRun = 0
  reading : z.inZeroRun = true →
    z.thisZeroRunIndex + z.thisZeroRun = quads.length ∧ ZeroAt quads z.thisZeroRunIndex z.thisZeroRun
  tail : ∀ k, k < quads.length → ZeroAt quads k (quads.length - k) →
    z.inZeroRun = true ∧ z.thisZeroRunIndex ≤ k
  before : z.inZeroRun = true → ∀ k, z.maxZeroRunIndex = some k → k ≤ z.thisZeroRunIndex
  longest : ∀ k r, 1 < r → ZeroAt quads k r → (z.inZeroRun = true → k < z.thisZeroRunIndex) →
    r ≤ z.maxZeroRun ∧ (r = z.maxZeroRun → ∀ m, z.maxZeroRunIndex = some m → m ≤ k)

theorem scanned_start : ZeroRuns.start.Scanned [] where
  isRun k h := by cases h
  noRun _ := rfl
  reading h := by cases h
  tail k h := absurd h (Nat.not_lt_zero k)
  before h := by cases h
  longest k r hr h := by
    have := h.le_length (by omega)
    rw [length_nil] at this
    omega

variable {z : ZeroRuns}

theorem ZeroRuns.Scanned.close (h : z.Scanned quads) :
    LongestRun quads z.close.maxZeroRunIndex z.close.maxZeroRun := by
  simp only [ZeroRuns.close]
  split
  case isTrue hc =>
    obtain ⟨hin, hlt, h1⟩ := hc
    obtain ⟨hend, hzero⟩ := h.reading hin
    apply LongestRun.mk
    · intro k hk
      cases hk
      exact ⟨h1, hzero⟩
    · intro hk
      cases hk
    · intro k r hr hz
      dsimp only
      cases Nat.lt_or_ge k z.thisZeroRunIndex with
      | inl hk =>
        have hle := (h.longest k r hr hz fun _ => hk).1
        exact ⟨by omega, fun he => by omega⟩
      | inr hk =>
        have hle := hz.le_length (by omega)
        have hr' : r ≤ z.thisZeroRun := by omega
        have hfirst : z.thisZeroRunIndex ≤ k := hk
        exact ⟨hr', fun _ m hm => by cases hm; exact hfirst⟩
  case isFalse hc =>
    apply LongestRun.mk h.isRun h.noRun
    intro k r hr hz
    by_cases hk : z.inZeroRun = true → k < z.thisZeroRunIndex
    · exact h.longest k r hr hz hk
    · obtain ⟨hin, hk⟩ := Classical.not_imp.1 hk
      obtain ⟨hend, hzero⟩ := h.reading hin
      have hle := hz.le_length (by omega)
      have hr' : r ≤ z.maxZeroRun := by
        by_contra hgt
        exact hc ⟨hin, by omega, by omega⟩
      exact ⟨hr', fun _ m hm => (h.before hin m hm).trans (Nat.le_of_not_lt hk)⟩

/-- A zero opens a run or makes the open one longer. -/
theorem ZeroRuns.Scanned.zero (h : z.Scanned quads) :
    (z.scan quads.length 0).Scanned (quads ++ [0]) := by
  have hold : ∀ k r, ZeroAt (quads ++ [0]) k r → k + r = quads.length + 1 → k < quads.length →
      z.inZeroRun = true ∧ z.thisZeroRunIndex ≤ k := by
    intro k r hz hr hk
    apply h.tail k hk
    have hz' : ZeroAt (quads ++ [0]) k (quads.length - k) := fun j hj hj' => hz j hj (by omega)
    exact hz'.of_append (by omega)
  simp only [ZeroRuns.scan, if_pos]
  cases hin : z.inZeroRun with
  | true =>
    obtain ⟨hend, hzero⟩ := h.reading hin
    simp only [if_true]
    constructor
    · exact fun k hk => ⟨(h.isRun k hk).1, (h.isRun k hk).2.append _⟩
    · exact h.noRun
    · intro _
      dsimp only
      exact ⟨by rw [length_append, length_singleton]; omega, hzero.snoc hend⟩
    · intro k hk hz
      dsimp only
      rw [length_append, length_singleton] at hk hz
      apply And.intro rfl
      cases Nat.lt_or_eq_of_le (Nat.le_of_lt_succ hk) with
      | inl hlt => exact (hold k _ hz (by omega) hlt).2
      | inr heq => omega
    · exact fun _ k hk => h.before hin k hk
    · intro k r hr hz hk
      have hk' := hk rfl
      dsimp only at hk' ⊢
      have hle := hz.le_length (by omega)
      rw [length_append, length_singleton] at hle
      cases Nat.lt_or_eq_of_le hle with
      | inl hlt => exact h.longest k r hr (hz.of_append (by omega)) fun _ => hk'
      | inr heq =>
        have := (hold k r hz heq (by omega)).2
        omega
  | false =>
    simp only [Bool.false_eq_true, if_false]
    have hno : ∀ k r, ZeroAt (quads ++ [0]) k r → k + r = quads.length + 1 → ¬k < quads.length := by
      intro k r hz hr hk
      have := (hold k r hz hr hk).1
      rw [hin] at this
      cases this
    constructor
    · exact fun k hk => ⟨(h.isRun k hk).1, (h.isRun k hk).2.append _⟩
    · exact h.noRun
    · intro _
      have hnil : ZeroAt quads quads.length 0 := fun j hk hj => by omega
      exact ⟨by rw [length_append, length_singleton], hnil.snoc (Nat.add_zero _)⟩
    · intro k hk hz
      dsimp only
      rw [length_append, length_singleton] at hk hz
      exact ⟨rfl, Nat.le_of_not_lt (hno k _ hz (by omega))⟩
    · intro _ k hk
      obtain ⟨h1, hz⟩ := h.isRun k hk
      have := hz.le_length (by omega)
      dsimp only
      omega
    · intro k r hr hz hk
      dsimp only at hk ⊢
      have hk' := hk rfl
      have hle := hz.le_length (by omega)
      rw [length_append, length_singleton] at hle
      cases Nat.lt_or_eq_of_le hle with
      | inl hlt =>
        apply h.longest k r hr (hz.of_append (by omega))
        intro hin'
        rw [hin] at hin'
        cases hin'
      | inr heq => exact absurd hk' (hno k r hz heq)

theorem ZeroRuns.Scanned.nonzero (h : z.Scanned quads) (hq : q ≠ 0) :
    (z.scan quads.length q).Scanned (quads ++ [q]) := by
  have hclose := h.close
  simp only [ZeroRuns.scan, if_neg hq]
  constructor
  · exact fun k hk => ⟨(hclose.isRun k hk).1, (hclose.isRun k hk).2.append _⟩
  · exact hclose.noRun
  · intro hin
    cases hin
  · intro k hk hz
    have hr : 0 < (quads ++ [q]).length - k := by omega
    have := hz.of_snoc hq hr
    rw [length_append, length_singleton] at this hk
    omega
  · intro hin
    cases hin
  · exact fun k r hr hz _ => hclose.longest k r hr (hz.of_append (hz.of_snoc hq (by omega)))

theorem ZeroRuns.Scanned.scan (h : z.Scanned quads) (q : BitVec 16) :
    (z.scan quads.length q).Scanned (quads ++ [q]) := by
  by_cases hq : q = 0
  · rw [hq]
    exact h.zero
  · exact h.nonzero hq

theorem ZeroRuns.Scanned.scanAll (h : z.Scanned quads) (more : List (BitVec 16)) :
    (z.scanAll quads.length more).Scanned (quads ++ more) := by
  induction more generalizing z quads with
  | nil =>
    rw [append_nil]
    exact h
  | cons q more ih =>
    have := ih (h.scan q)
    rwa [length_append, length_singleton, List.append_assoc, singleton_append] at this

theorem longestRun_zeroRuns (a : Ip6Address) :
    LongestRun (List.ofFn a.asU16) a.zeroRuns.maxZeroRunIndex a.zeroRuns.maxZeroRun :=
  (scanned_start.scanAll (List.ofFn a.asU16)).close

end Vpp.Ip
