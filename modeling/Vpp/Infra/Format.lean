import Vpp.Lib.Numeral
import Mathlib.Data.List.Basic

namespace Vpp.Infra
open Vpp.Lib

structure FormatIntegerOptions where
  base : Nat
  base_gt : 1 < base
  nBits : Nat
  isSigned : Bool
  uppercaseDigits : Bool

def digitChar (o : FormatIntegerOptions) (r : Nat) : UInt8 :=
  if r < 62 then
    let c := if r < 10 then 48 + r else if r < 36 then 97 + (r - 10) else 65 + (r - 36)
    if o.uppercaseDigits ∧ o.base ≤ 36 ∧ 97 ≤ c ∧ c ≤ 122 then (c - 32).toUInt8 else c.toUInt8
  else 63

def formatInteger (s : List UInt8) (number : BitVec 64) (o : FormatIntegerOptions) : List UInt8 :=
  let negative := o.isSigned && number.slt 0
  let s := if negative then s ++ [45] else s
  let number := if negative then -number else number
  let number := if o.nBits < 64 then number.toNat % 2 ^ o.nBits else number.toNat
  s ++ (numeral o.base o.base_gt number []).map (digitChar o)

/-- `%x` of an `int`. -/
def percentX : FormatIntegerOptions := ⟨16, by decide, 32, false, false⟩

theorem formatInteger_eq (s : List UInt8) (o : FormatIntegerOptions) (n : Nat) (hn : n < 2 ^ 31) (hb : o.nBits = 32) :
    formatInteger s (BitVec.ofNat 64 n) o = s ++ (numeral o.base o.base_gt n []).map (digitChar o) := by
  have h64 : n < 2 ^ 64 := by omega
  have hnat : (BitVec.ofNat 64 n).toNat = n := by
    rw [BitVec.toNat_ofNat, Nat.mod_eq_of_lt h64]
  have hneg : (BitVec.ofNat 64 n).slt 0 = false := by
    rw [BitVec.slt_eq_decide, BitVec.toInt_eq_toNat_of_lt (by rw [hnat]; omega), hnat]
    simp
  simp only [formatInteger, hneg, Bool.and_false, Bool.false_eq_true, if_false]
  rw [hnat, hb, if_pos (by decide), Nat.mod_eq_of_lt (by omega)]

end Vpp.Infra
