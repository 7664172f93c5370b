import Mathlib.Data.Set.Insert
import Mathlib.Data.Nat.Bitwise

namespace Vpp.Lib

/-- Bit `d` of the map tells whether the number `d` below `top` is in the set, and nothing in
the set lies above `top`. -/
structure WindowOf (n top : Nat) (w : BitVec n) (S : Set Nat) : Prop where
  bit : ∀ d, d < n → (w.getLsbD d = true ↔ d ≤ top ∧ top - d ∈ S)
  le_top : ∀ x, x ∈ S → x ≤ top

theorem getLsbD_one_shift (hd : d < n) (he : e < n) :
    (1#n <<< e).getLsbD d = decide (d = e) := by
  simp only [BitVec.getLsbD_shiftLeft, BitVec.getLsbD_one]
  by_cases h : d = e
  · subst h
    simp; omega
  · by_cases hlt : d < e
    · simp [hlt, h]
    · have hne : d - e ≠ 0 := by omega
      simp [hne, h]

theorem and_one_shift_ne_zero (w : BitVec n) (hd : d < n) :
    w &&& (1#n <<< d) ≠ 0#n ↔ w.getLsbD d = true := by
  constructor
  · intro h
    by_contra hw
    apply h
    apply BitVec.eq_of_getLsbD_eq
    intro i hi
    rw [BitVec.getLsbD_and, getLsbD_one_shift hi hd, BitVec.getLsbD_zero]
    by_cases hid : i = d
    · subst hid
      rw [Bool.eq_false_iff.mpr hw, Bool.false_and]
    · rw [decide_eq_false hid, Bool.and_false]
  · intro h he
    have hb := congrArg (fun v => v.getLsbD d) he
    simp only [BitVec.getLsbD_and, getLsbD_one_shift hd hd, h, decide_true, Bool.and_self,
      BitVec.getLsbD_zero] at hb
    cases hb

theorem WindowOf.empty (n top : Nat) : WindowOf n top 0#n ∅ where
  bit := by
    intro d _
    simp
  le_top := by
    intro x hx
    exact hx.elim

theorem WindowOf.mem_iff (h : WindowOf n top w S) (hx : x ≤ top) (hd : top - x < n) :
    w &&& (1#n <<< (top - x)) ≠ 0#n ↔ x ∈ S := by
  rw [and_one_shift_ne_zero w hd, h.bit _ hd]
  constructor
  · rintro ⟨_, hm⟩
    rwa [Nat.sub_sub_self hx] at hm
  · intro hm
    exact ⟨Nat.sub_le _ _, by rwa [Nat.sub_sub_self hx]⟩

theorem WindowOf.mark (h : WindowOf n top w S) (hx : x ≤ top) (hd : top - x < n) :
    WindowOf n top (w ||| (1#n <<< (top - x))) (insert x S) where
  bit := by
    intro d hdn
    rw [BitVec.getLsbD_or, getLsbD_one_shift hdn hd, Bool.or_eq_true, h.bit d hdn,
      decide_eq_true_iff]
    constructor
    · rintro (⟨hle, hm⟩ | he)
      · exact ⟨hle, Set.mem_insert_of_mem _ hm⟩
      · refine ⟨by omega, ?_⟩
        rw [he, Nat.sub_sub_self hx]
        exact Set.mem_insert _ _
    · rintro ⟨hle, hm⟩
      rcases Set.mem_insert_iff.mp hm with he | hm
      · exact .inr (by omega)
      · exact .inl ⟨hle, hm⟩
  le_top := by
    intro y hy
    rcases Set.mem_insert_iff.mp hy with he | hy
    · omega
    · exact h.le_top y hy

/-- A new highest number close above the old one slides the window. -/
theorem WindowOf.slide (h : WindowOf n top w S) (hx : top < x) (hd : x - top < n) :
    WindowOf n x ((w <<< (x - top)) ||| 1#n) (insert x S) where
  bit := by
    intro d hdn
    have hn : 0 < n := by omega
    rw [BitVec.getLsbD_or, BitVec.getLsbD_shiftLeft, BitVec.getLsbD_one]
    by_cases h0 : d = 0
    · subst h0
      simp [hn]
    · by_cases hlt : d < x - top
      · simp only [hdn, hlt, h0, decide_true, Bool.not_true, Bool.and_false, Bool.false_and,
          decide_false, Bool.false_or, Bool.false_eq_true, false_iff, not_and]
        intro hle hm
        rcases Set.mem_insert_iff.mp hm with he | hm
        · omega
        · have := h.le_top _ hm
          omega
      · simp only [hdn, hlt, h0, decide_true, decide_false, Bool.not_false, Bool.and_self,
          Bool.true_and, Bool.and_false, Bool.or_false]
        rw [h.bit _ (by omega)]
        have he : top - (d - (x - top)) = x - d := by omega
        rw [he]
        constructor
        · rintro ⟨hle, hm⟩
          exact ⟨by omega, Set.mem_insert_of_mem _ hm⟩
        · rintro ⟨hle, hm⟩
          rcases Set.mem_insert_iff.mp hm with he | hm
          · omega
          · exact ⟨by omega, hm⟩
  le_top := by
    intro y hy
    rcases Set.mem_insert_iff.mp hy with he | hy
    · omega
    · have := h.le_top y hy
      omega

theorem WindowOf.jump (h : WindowOf n top w S) (hn : 0 < n) (hd : top + n ≤ x) :
    WindowOf n x 1#n (insert x S) where
  bit := by
    intro d hdn
    rw [BitVec.getLsbD_one]
    by_cases h0 : d = 0
    · subst h0
      simp [hn]
    · simp only [h0, decide_false, Bool.and_false, Bool.false_eq_true, false_iff, not_and]
      intro hle hm
      rcases Set.mem_insert_iff.mp hm with he | hm
      · omega
      · have := h.le_top _ hm
        omega
  le_top := by
    intro y hy
    rcases Set.mem_insert_iff.mp hy with he | hy
    · omega
    · have := h.le_top y hy
      omega

end Vpp.Lib
