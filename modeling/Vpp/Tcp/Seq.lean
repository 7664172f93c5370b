import Mathlib.Data.BitVec

namespace Vpp.Tcp
open BitVec

abbrev Seq := BitVec 32

def seqLt (s1 s2 : Seq) : Bool := (s1 - s2).toInt < 0
def seqLeq (s1 s2 : Seq) : Bool := (s1 - s2).toInt ≤ 0
def seqGt (s1 s2 : Seq) : Bool := (s1 - s2).toInt > 0
def seqGeq (s1 s2 : Seq) : Bool := (s1 - s2).toInt ≥ 0

@[simp] theorem seqLt_add_right (a b c : Seq) : seqLt (a + c) (b + c) = seqLt a b := by
  rw [seqLt, add_sub_add_right_eq_sub, seqLt]

@[simp] theorem seqLeq_add_right (a b c : Seq) : seqLeq (a + c) (b + c) = seqLeq a b := by
  rw [seqLeq, add_sub_add_right_eq_sub, seqLeq]

@[simp] theorem seqGt_add_right (a b c : Seq) : seqGt (a + c) (b + c) = seqGt a b := by
  rw [seqGt, add_sub_add_right_eq_sub, seqGt]

@[simp] theorem seqGeq_add_right (a b c : Seq) : seqGeq (a + c) (b + c) = seqGeq a b := by
  rw [seqGeq, add_sub_add_right_eq_sub, seqGeq]

@[simp] theorem Seq.beq_add_right (a b c : Seq) : (a + c == b + c) = (a == b) := by
  rw [Bool.eq_iff_iff, beq_iff_eq, beq_iff_eq]
  exact add_left_inj c

theorem Seq.ult_add_right (a b c : Seq) (hne : a ≠ b) :
    (a + c).ult (b + c) = a.ult b ↔ (a.toNat + c.toNat < 2 ^ 32 ↔ b.toNat + c.toNat < 2 ^ 32) := by
  have hne' : a.toNat ≠ b.toNat := fun h => hne (eq_of_toNat_eq h)
  have ha := a.isLt
  have hb := b.isLt
  have hc := c.isLt
  rw [BitVec.ult, BitVec.ult, decide_eq_decide, toNat_add, toNat_add]
  omega

/-- The number of the byte at position `n` of a stream whose first byte has the number `base`. -/
def Seq.at (base : Seq) (n : Nat) : Seq := base + BitVec.ofNat 32 n

theorem Seq.at_add (base : Seq) (m n : Nat) : Seq.at base (m + n) = Seq.at base m + BitVec.ofNat 32 n := by
  rw [Seq.at, Seq.at, ofNat_add, add_assoc]

theorem Seq.at_sub (base : Seq) (h : n ≤ m) : Seq.at base m - Seq.at base n = BitVec.ofNat 32 (m - n) := by
  obtain ⟨k, rfl⟩ := Nat.exists_eq_add_of_le h
  rw [Seq.at_add, add_sub_cancel_left, Nat.add_sub_cancel_left]

theorem Seq.at_sub_toInt (base : Seq) (hm : m < n + 2 ^ 31) (hn : n < m + 2 ^ 31) :
    (Seq.at base m - Seq.at base n).toInt = (m : Int) - n := by
  rw [Seq.at, Seq.at, add_sub_add_left_eq_sub, BitVec.toInt_sub, toInt_ofNat', toInt_ofNat']
  simp only [Int.bmod]
  omega

section
variable (base : Seq) (hm : m < n + 2 ^ 31) (hn : n < m + 2 ^ 31)
include hm hn

theorem seqLt_at : seqLt (Seq.at base m) (Seq.at base n) = decide (m < n) := by
  rw [seqLt, Seq.at_sub_toInt base hm hn]
  exact decide_eq_decide.mpr (by omega)

theorem seqLeq_at : seqLeq (Seq.at base m) (Seq.at base n) = decide (m ≤ n) := by
  rw [seqLeq, Seq.at_sub_toInt base hm hn]
  exact decide_eq_decide.mpr (by omega)

theorem seqGt_at : seqGt (Seq.at base m) (Seq.at base n) = decide (m > n) := by
  rw [seqGt, Seq.at_sub_toInt base hm hn]
  exact decide_eq_decide.mpr (by omega)

theorem seqGeq_at : seqGeq (Seq.at base m) (Seq.at base n) = decide (m ≥ n) := by
  rw [seqGeq, Seq.at_sub_toInt base hm hn]
  exact decide_eq_decide.mpr (by omega)

end

theorem seqLeq_true (base : Seq) (hle : m ≤ n) (hw : n < m + 2 ^ 31) :
    seqLeq (Seq.at base m) (Seq.at base n) = true := by
  rw [seqLeq_at base (by omega) hw]
  exact decide_eq_true hle

theorem seqLeq_false (base : Seq) (hlt : n < m) (hw : m < n + 2 ^ 31) :
    seqLeq (Seq.at base m) (Seq.at base n) = false := by
  rw [seqLeq_at base hw (by omega)]
  exact decide_eq_false (Nat.not_le.2 hlt)

theorem seqGeq_true (base : Seq) (hle : n ≤ m) (hw : m < n + 2 ^ 31) :
    seqGeq (Seq.at base m) (Seq.at base n) = true := by
  rw [seqGeq_at base hw (by omega)]
  exact decide_eq_true hle

theorem seqGeq_false (base : Seq) (hlt : m < n) (hw : n < m + 2 ^ 31) :
    seqGeq (Seq.at base m) (Seq.at base n) = false := by
  rw [seqGeq_at base (by omega) hw]
  exact decide_eq_false (Nat.not_le.2 hlt)

theorem toInt_of_toNat_lt {x : BitVec 32} (h : x.toNat < 2 ^ 31) : x.toInt = x.toNat := by
  rw [toInt_eq_toNat_cond, if_pos (by omega)]

theorem toInt_of_le_toNat {x : BitVec 32} (h : 2 ^ 31 ≤ x.toNat) : x.toInt = x.toNat - 2 ^ 32 := by
  rw [toInt_eq_toNat_cond, if_neg (by omega)]
  rfl

theorem toNat_lt_of_not_seqLt (h : seqLt a b = false) : (a - b).toNat < 2 ^ 31 := by
  by_contra hge
  have hneg := toInt_of_le_toNat (Nat.le_of_not_lt hge)
  have hlt := (a - b).isLt
  rw [seqLt, decide_eq_false_iff_not] at h
  omega

theorem toNat_of_seqGt (h : seqGt a b = true) : 0 < (a - b).toNat ∧ (a - b).toNat < 2 ^ 31 := by
  rw [seqGt, decide_eq_true_iff] at h
  by_cases hlt : (a - b).toNat < 2 ^ 31
  · rw [toInt_of_toNat_lt hlt] at h
    omega
  · rw [toInt_of_le_toNat (Nat.le_of_not_lt hlt)] at h
    have hb := (a - b).isLt
    omega

theorem toNat_of_seqLt (h : seqLt a b = true) : 0 < (b - a).toNat ∧ (b - a).toNat ≤ 2 ^ 31 := by
  rw [seqLt, decide_eq_true_iff] at h
  have hge : 2 ^ 31 ≤ (a - b).toNat := by
    by_contra hlt
    rw [toInt_of_toNat_lt (Nat.lt_of_not_le hlt)] at h
    omega
  have hb := (a - b).isLt
  have hneg : (b - a).toNat = 2 ^ 32 - (a - b).toNat := by
    rw [← neg_sub a b, toNat_neg, Nat.mod_eq_of_lt (by omega)]
  omega

end Vpp.Tcp
