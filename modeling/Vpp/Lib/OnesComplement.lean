import Mathlib.Data.BitVec
import Mathlib.Data.ZMod.Basic
import Mathlib.Tactic.LinearCombination
import Mathlib.Tactic.Ring
import Vpp.Lib.Splice

namespace Vpp.Lib
open List BitVec

section Carry
variable {w m : Nat} (hm : (2 ^ w : ZMod m) = 1) (a b : BitVec w)
include hm

theorem cast_toNat_sub_two_pow {n : Nat} (h : 2 ^ w ≤ n) : ((n - 2 ^ w : Nat) : ZMod m) = n - 1 := by
  rw [Nat.cast_sub h, Nat.cast_pow, Nat.cast_ofNat, hm]

omit hm in
theorem toNat_carryAdd (hw : 0 < w) : (a + b + if a + b < b then 1 else 0).toNat =
    if a.toNat + b.toNat < 2 ^ w then a.toNat + b.toNat else a.toNat + b.toNat - 2 ^ w + 1 := by
  have ha := a.isLt
  have hb := b.isLt
  have hpos : 1 < 2 ^ w := Nat.one_lt_two_pow (by omega)
  have hone : (1 : BitVec w).toNat = 1 := toNat_one hw
  by_cases hlt : a.toNat + b.toNat < 2 ^ w
  · have hsum : (a + b).toNat = a.toNat + b.toNat := by
      rw [toNat_add, Nat.mod_eq_of_lt hlt]
    have hno : ¬ a + b < b := by
      rw [lt_def, hsum]
      omega
    rw [if_neg hno, if_pos hlt, ← hsum]
    simp
  · have hsum : (a + b).toNat = a.toNat + b.toNat - 2 ^ w := by
      rw [toNat_add, Nat.mod_eq_sub_mod (by omega), Nat.mod_eq_of_lt (by omega)]
    have hyes : a + b < b := by
      rw [lt_def, hsum]
      omega
    rw [if_pos hyes, if_neg hlt, toNat_add, hsum, hone, Nat.mod_eq_of_lt (by omega)]

theorem cast_carryAdd (hw : 0 < w) :
    ((a + b + if a + b < b then 1 else 0).toNat : ZMod m) = a.toNat + b.toNat := by
  rw [toNat_carryAdd a b hw]
  split
  · rw [Nat.cast_add]
  · rename_i hge
    rw [Nat.cast_add, cast_toNat_sub_two_pow hm (Nat.le_of_not_lt hge), Nat.cast_add, Nat.cast_one]
    ring

omit hm in
theorem carryAdd_eq_zero (hw : 0 < w) : (a + b + if a + b < b then 1 else 0) = 0 ↔ a = 0 ∧ b = 0 := by
  have hzero : ∀ x : BitVec w, x = 0 ↔ x.toNat = 0 := by
    intro x
    rw [← toNat_inj]
    simp
  rw [hzero, toNat_carryAdd a b hw, hzero a, hzero b]
  split
  · omega
  · have := Nat.two_pow_pos w
    omega

theorem cast_borrowSub (hw : 0 < w) :
    ((a - b - if a < a - b then 1 else 0).toNat : ZMod m) = a.toNat - b.toNat := by
  have ha := a.isLt
  have hb := b.isLt
  have hpos : 1 < 2 ^ w := Nat.one_lt_two_pow (by omega)
  have hone : (1 : BitVec w).toNat = 1 := toNat_one hw
  by_cases hle : b.toNat ≤ a.toNat
  · have hsub : (a - b).toNat = a.toNat - b.toNat := toNat_sub_of_le hle
    have hno : ¬ a < a - b := by
      rw [lt_def, hsub]
      omega
    have hzero : (a - b - 0).toNat = (a - b).toNat := by simp
    rw [if_neg hno, hzero, hsub, Nat.cast_sub hle]
  · have hsub : (a - b).toNat = 2 ^ w + a.toNat - b.toNat := by
      rw [toNat_sub, Nat.mod_eq_of_lt (by omega)]
      omega
    have hyes : a < a - b := by
      rw [lt_def, hsub]
      omega
    have hle' : (1 : BitVec w).toNat ≤ (a - b).toNat := by omega
    rw [if_pos hyes, toNat_sub_of_le hle', hsub, hone, Nat.cast_sub (by omega), Nat.cast_sub (by omega),
      Nat.cast_add, Nat.cast_pow, Nat.cast_ofNat, hm, Nat.cast_one]
    ring

end Carry

/-- The number that a byte string spells, least significant byte first. -/
def leValue : List (BitVec 8) → Nat
  | [] => 0
  | b :: bs => b.toNat + 256 * leValue bs

def leBytes : Nat → Nat → List (BitVec 8)
  | 0, _ => []
  | n + 1, v => BitVec.ofNat 8 v :: leBytes n (v / 256)

@[simp] theorem length_leBytes (n v : Nat) : (leBytes n v).length = n := by
  induction n generalizing v with
  | zero => rfl
  | succ n ih => rw [leBytes, length_cons, ih]

theorem leValue_leBytes (n v : Nat) : leValue (leBytes n v) = v % 256 ^ n := by
  induction n generalizing v with
  | zero => simp [leBytes, leValue, Nat.mod_one]
  | succ n ih =>
    rw [leBytes, leValue, ih, toNat_ofNat, pow_succ' 256 n, Nat.mod_mul]

theorem leValue_lt (bs : List (BitVec 8)) : leValue bs < 256 ^ bs.length := by
  induction bs with
  | nil => exact Nat.one_pos
  | cons b bs ih =>
    have hb := b.isLt
    rw [leValue, length_cons, Nat.pow_succ]
    omega

theorem leValue_append (as bs : List (BitVec 8)) : leValue (as ++ bs) = leValue as + 256 ^ as.length * leValue bs := by
  induction as with
  | nil => simp [leValue]
  | cons a as ih =>
    rw [List.cons_append, leValue, ih, leValue, length_cons, Nat.pow_succ]
    ring

theorem leValue_append_eq_zero : leValue (as ++ bs) = 0 ↔ leValue as = 0 ∧ leValue bs = 0 := by
  have hpos : 0 < 256 ^ as.length := Nat.pow_pos (by decide)
  rw [leValue_append, Nat.add_eq_zero_iff, Nat.mul_eq_zero]
  constructor
  · intro ⟨h1, h2⟩
    exact ⟨h1, h2.resolve_left hpos.ne'⟩
  · intro ⟨h1, h2⟩
    exact ⟨h1, .inr h2⟩

section Weights
variable {m : Nat} (hm : (256 * 256 : ZMod m) = 1)
include hm

theorem pow_even_eq_one {n : Nat} (h : n % 2 = 0) : (256 ^ n : ZMod m) = 1 := by
  have hn : n = 2 * (n / 2) := by omega
  rw [hn, pow_mul, pow_two, hm, one_pow]

theorem cast_leValue_append (h : as.length % 2 = 0) (bs : List (BitVec 8)) :
    (leValue (as ++ bs) : ZMod m) = leValue as + leValue bs := by
  rw [leValue_append, Nat.cast_add, Nat.cast_mul, Nat.cast_pow, Nat.cast_ofNat, pow_even_eq_one hm h, one_mul]

omit hm in
theorem leValue_splice (h : i + xs.length ≤ v.length) :
    (leValue (splice v i xs) : ZMod m) =
      leValue v + 256 ^ i * (leValue xs - leValue ((v.drop i).take xs.length)) := by
  have hv : v = v.take i ++ ((v.drop i).take xs.length ++ v.drop (i + xs.length)) := by
    rw [← drop_drop, take_append_drop, take_append_drop]
  have hi : (v.take i).length = i := by
    rw [length_take]
    omega
  have hx : ((v.drop i).take xs.length).length = xs.length := by
    rw [length_take, length_drop]
    omega
  have hold : leValue v = leValue (v.take i) +
      256 ^ i * (leValue ((v.drop i).take xs.length) + 256 ^ xs.length * leValue (v.drop (i + xs.length))) := by
    nth_rewrite 1 [hv]
    rw [leValue_append, leValue_append, hi, hx]
  rw [hold, splice, List.append_assoc, leValue_append, leValue_append, hi]
  push_cast
  ring

end Weights

end Vpp.Lib
