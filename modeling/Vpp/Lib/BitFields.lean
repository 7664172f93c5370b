import Mathlib.Data.BitVec

namespace Vpp.Lib
open BitVec

theorem toNat_shiftLeft_of_lt {x : BitVec w} (h : x.toNat * 2 ^ n < 2 ^ w) : (x <<< n).toNat = x.toNat * 2 ^ n := by
  rw [toNat_shiftLeft, Nat.shiftLeft_eq, Nat.mod_eq_of_lt h]

theorem toNat_pack {x y : BitVec w} (hx : x.toNat * 2 ^ n < 2 ^ w) (hy : y.toNat < 2 ^ n) :
    (x <<< n ||| y).toNat = x.toNat * 2 ^ n + y.toNat := by
  rw [toNat_or, toNat_shiftLeft_of_lt hx, ← Nat.shiftLeft_eq, Nat.shiftLeft_add_eq_or_of_lt hy]

theorem pack_lt {x y : Nat} (hx : x < 2 ^ m) (hy : y < 2 ^ n) : x * 2 ^ n + y < 2 ^ (m + n) := by
  have hle : (x + 1) * 2 ^ n ≤ 2 ^ m * 2 ^ n := Nat.mul_le_mul_right _ hx
  rw [Nat.pow_add]
  rw [Nat.add_mul, Nat.one_mul] at hle
  omega

theorem pack_inj {x y : Nat} (ha : a < 2 ^ n) (hb : b < 2 ^ n) :
    x * 2 ^ n + a = y * 2 ^ n + b ↔ x = y ∧ a = b := by
  constructor
  · intro h
    have hhigh := congrArg (· / 2 ^ n) h
    have hlow := congrArg (· % 2 ^ n) h
    simp only [Nat.mul_comm _ (2 ^ n), Nat.mul_add_div (Nat.two_pow_pos n), Nat.mul_add_mod, Nat.div_eq_of_lt ha,
      Nat.div_eq_of_lt hb, Nat.mod_eq_of_lt ha, Nat.mod_eq_of_lt hb, Nat.add_zero] at hhigh hlow
    exact ⟨hhigh, hlow⟩
  · intro h
    rw [h.1, h.2]

theorem toNat_field {x m : BitVec w} (hm : m.toNat = 2 ^ n - 1) (s : Nat) :
    ((x >>> s) &&& m).toNat = x.toNat / 2 ^ s % 2 ^ n := by
  rw [toNat_and, toNat_ushiftRight, hm, Nat.and_two_pow_sub_one_eq_mod, Nat.shiftRight_eq_div_pow]

theorem toNat_mask (hn : n < w) : ((1#w <<< n) - 1#w).toNat = 2 ^ n - 1 := by
  have hpow : 2 ^ n < 2 ^ w := Nat.pow_lt_pow_right (by decide) hn
  have hone : (1#w).toNat = 1 := by
    rw [toNat_ofNat]
    exact Nat.mod_eq_of_lt (Nat.lt_of_le_of_lt (Nat.one_le_two_pow) hpow)
  have hshift : (1#w <<< n).toNat = 2 ^ n := by
    rw [toNat_shiftLeft_of_lt (by rw [hone, Nat.one_mul]; exact hpow), hone, Nat.one_mul]
  have hle : 1#w ≤ 1#w <<< n := by
    rw [le_def, hone, hshift]
    exact Nat.one_le_two_pow
  rw [toNat_sub_of_le hle, hshift, hone]

/-- The signed words in the order 0, -1, 1, -2, 2 and so on. -/
def zigzag (s : BitVec 64) : BitVec 64 := if s.slt 0 then -(2 * s + 1) else 2 * s

def negateOdd (u : BitVec 64) : BitVec 64 := if u &&& 1 ≠ 0 then -(u / 2) else u / 2

theorem slt_zero_iff (s : BitVec n) : s.slt 0 = true ↔ s.toInt < 0 := by
  rw [slt_iff_toInt_lt]
  simp

theorem and_one_ne_zero (u : BitVec 64) : u &&& 1 ≠ 0 ↔ u.toNat % 2 = 1 := by
  have hand : (u &&& 1).toNat = u.toNat % 2 := by
    rw [toNat_and]
    exact Nat.and_one_is_mod u.toNat
  rw [ne_eq, ← toNat_inj, hand]
  exact Nat.mod_two_ne_zero

/-- Zero is the half of two numbers: negating the half of an odd one is one off. -/
theorem negateOdd_zigzag (s : BitVec 64) : negateOdd (zigzag s) = if s.slt 0 then s + 1 else s := by
  have hs := s.isLt
  have hdouble : (2 * s).toNat = 2 * s.toNat % 2 ^ 64 := toNat_mul 2 s
  have hhalf : ∀ u : BitVec 64, (u / 2).toNat = u.toNat / 2 := fun u => toNat_udiv
  rw [negateOdd]
  by_cases hneg : s.slt 0 = true
  · have hlt := (slt_zero_iff s).mp hneg
    rw [toInt_eq_toNat_cond] at hlt
    have hodd : (2 * s + 1).toNat = 2 * s.toNat % 2 ^ 64 + 1 := by
      rw [toNat_add, hdouble]
      show (2 * s.toNat % 2 ^ 64 + 1) % 2 ^ 64 = 2 * s.toNat % 2 ^ 64 + 1
      omega
    have hz : (zigzag s).toNat = 2 * (2 ^ 64 - s.toNat) - 1 := by
      rw [zigzag, if_pos hneg, toNat_neg, hodd]
      omega
    have hu : (zigzag s).toNat % 2 = 1 := by omega
    rw [if_pos ((and_one_ne_zero _).mpr hu), if_pos hneg]
    apply eq_of_toNat_eq
    rw [toNat_neg, hhalf, hz, toNat_add]
    show (2 ^ 64 - (2 * (2 ^ 64 - s.toNat) - 1) / 2) % 2 ^ 64 = (s.toNat + 1) % 2 ^ 64
    omega
  · have hge : ¬ s.toInt < 0 := fun hlt => hneg ((slt_zero_iff s).mpr hlt)
    rw [toInt_eq_toNat_cond] at hge
    have hz : (zigzag s).toNat = 2 * s.toNat := by
      rw [zigzag, if_neg hneg, hdouble]
      omega
    have hu : ¬ (zigzag s).toNat % 2 = 1 := by omega
    rw [if_neg (fun h => hu ((and_one_ne_zero _).mp h)), if_neg hneg]
    apply eq_of_toNat_eq
    rw [hhalf, hz]
    omega

theorem negateOdd_zigzag_eq_iff (s : BitVec 64) : negateOdd (zigzag s) = s ↔ 0 ≤ s.toInt := by
  rw [negateOdd_zigzag]
  by_cases hneg : s.slt 0 = true
  · rw [if_pos hneg]
    apply iff_of_false _ (Int.not_le.mpr ((slt_zero_iff s).mp hneg))
    intro h
    have hone : (1 : BitVec 64) = 0 := BitVec.add_right_eq_self.mp h
    cases hone
  · rw [if_neg hneg]
    exact iff_of_true rfl (Int.not_lt.mp fun hlt => hneg ((slt_zero_iff s).mpr hlt))

end Vpp.Lib
