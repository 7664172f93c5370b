import Mathlib.Data.BitVec

namespace Vpp.Lib
open BitVec

theorem rotateLeft_back (x : BitVec w) (hpos : 0 < r) (hr : r < w) : (x.rotateLeft r).rotateLeft (w - r) = x := by
  have hback : w - r < w := Nat.sub_lt (hpos.trans hr) hpos
  apply eq_of_getLsbD_eq
  intro i hi
  rw [getLsbD_rotateLeft_of_le hback, getLsbD_rotateLeft_of_le hr, getLsbD_rotateLeft_of_le hr]
  by_cases hlow : i < w - r
  · have hat : w - (w - r) + i - r = i := by omega
    simp [hlow, hat, show ¬ w - (w - r) + i < r by omega, show w - (w - r) + i < w by omega]
  · have hat : w - r + (i - (w - r)) = i := by omega
    simp [hlow, hat, hi, show i - (w - r) < r by omega]

theorem rotateLeft_injective (hpos : 0 < r) (hr : r < w) : Function.Injective fun x : BitVec w => x.rotateLeft r :=
  Function.LeftInverse.injective (g := fun x => x.rotateLeft (w - r)) fun x => rotateLeft_back x hpos hr

/-- What differs would be its own shift. -/
theorem xorShift_injective (hs : 0 < s) : Function.Injective fun x : BitVec w => x ^^^ x >>> s := by
  intro x y h
  have hsame : x ^^^ y = (x ^^^ y) >>> s := by
    rw [ushiftRight_xor_distrib]
    apply BitVec.xor_eq_zero_iff.mp
    calc x ^^^ y ^^^ (x >>> s ^^^ y >>> s) = x ^^^ x >>> s ^^^ (y ^^^ y >>> s) := by ac_rfl
      _ = 0#w := BitVec.xor_eq_zero_iff.mpr h
  have hzero : (x ^^^ y).toNat = 0 := by
    by_contra hne
    have hlt : (x ^^^ y).toNat / 2 ^ s < (x ^^^ y).toNat :=
      Nat.div_lt_self (Nat.pos_of_ne_zero hne) (Nat.one_lt_two_pow hs.ne')
    have heq := congrArg BitVec.toNat hsame
    rw [toNat_ushiftRight, Nat.shiftRight_eq_div_pow] at heq
    omega
  exact BitVec.xor_eq_zero_iff.mp (eq_of_toNat_eq hzero)

end Vpp.Lib
