import Mathlib.Data.List.GetD
import Mathlib.Data.Nat.Digits.Defs
import Mathlib.Data.Nat.ModEq

namespace Vpp.Lib
open List BitVec

/-- The `n` low bytes of a number, most significant first. -/
def netBytes : Nat → Nat → List (BitVec 8)
  | 0, _ => []
  | n + 1, v => BitVec.ofNat 8 (v / 256 ^ n) :: netBytes n v

/-- The number that a byte string spells, most significant byte first. -/
def netValue : List (BitVec 8) → Nat
  | [] => 0
  | b :: bs => b.toNat * 256 ^ bs.length + netValue bs

@[simp] theorem length_netBytes (n v : Nat) : (netBytes n v).length = n := by
  induction n with
  | zero => rfl
  | succ n ih => simp only [netBytes, length_cons, ih]

theorem netValue_netBytes (n v : Nat) : netValue (netBytes n v) = v % 256 ^ n := by
  induction n with
  | zero => simp [netBytes, netValue, Nat.mod_one]
  | succ n ih =>
    have hs : v % 256 ^ (n + 1) = v % 256 ^ n + 256 ^ n * (v / 256 ^ n % 256) := Nat.mod_pow_succ
    rw [netBytes, netValue, ih, length_netBytes, toNat_ofNat, hs, Nat.mul_comm,
      Nat.add_comm]

def netWord (w : Nat) (data : List (BitVec 8)) (off : Nat) : BitVec (8 * w) :=
  BitVec.ofNat (8 * w) (netValue ((data.drop off).take w))

theorem netWord_netBytes (v : BitVec (8 * w)) (rest : List (BitVec 8)) :
    netWord w (netBytes w v.toNat ++ rest) 0 = v := by
  have hl : ((netBytes w v.toNat ++ rest).drop 0).take w = netBytes w v.toNat := by
    rw [drop_zero, take_left' (length_netBytes w _)]
  have hlt : v.toNat < 256 ^ w := by
    rw [show (256 : Nat) = 2 ^ 8 from rfl, ← Nat.pow_mul]
    exact v.isLt
  rw [netWord, hl, netValue_netBytes, Nat.mod_eq_of_lt hlt, ofNat_toNat, setWidth_eq]

theorem netBytes_congr {a b : Nat} (h : a ≡ b [MOD 256 ^ n]) : netBytes n a = netBytes n b := by
  induction n with
  | zero => rfl
  | succ n ih =>
    have hhigh : a / 256 ^ n % 256 = b / 256 ^ n % 256 := by
      rw [← Nat.mod_mul_right_div_self, ← Nat.mod_mul_right_div_self, ← Nat.pow_succ, h]
    have hbyte : BitVec.ofNat 8 (a / 256 ^ n) = BitVec.ofNat 8 (b / 256 ^ n) := by
      apply eq_of_toNat_eq
      rw [toNat_ofNat, toNat_ofNat]
      exact hhigh
    rw [netBytes, netBytes, hbyte, ih (h.of_dvd (pow_dvd_pow 256 (Nat.le_succ n)))]

theorem toNat_netWord (v : Nat) (rest : List (BitVec 8)) :
    (netWord w (netBytes w v ++ rest) 0).toNat = v % 256 ^ w := by
  have hpow : 256 ^ w = 2 ^ (8 * w) := by rw [Nat.pow_mul]
  have hsame : netBytes w v = netBytes w (BitVec.ofNat (8 * w) v).toNat := by
    apply netBytes_congr
    rw [toNat_ofNat, hpow]
    exact (Nat.mod_modEq v _).symm
  rw [hsame, netWord_netBytes, toNat_ofNat, hpow]

theorem netWord_append (pre rest : List (BitVec 8)) (off : Nat) :
    netWord w (pre ++ rest) (pre.length + off) = netWord w rest off := by
  rw [netWord, netWord, drop_append, drop_eq_nil_of_le (Nat.le_add_right _ _),
    nil_append, Nat.add_sub_cancel_left]

/-- The `n` low bytes of a number, least significant first. -/
def littleBytes : Nat → Nat → List UInt8
  | 0, _ => []
  | n + 1, v => UInt8.ofNat v :: littleBytes n (v / 256)

/-- The number that a byte string spells, least significant byte first. -/
def littleValue : List UInt8 → Nat
  | [] => 0
  | b :: bs => b.toNat + 256 * littleValue bs

@[simp] theorem length_littleBytes (n v : Nat) : (littleBytes n v).length = n := by
  induction n generalizing v with
  | zero => rfl
  | succ n ih => rw [littleBytes, length_cons, ih]

theorem littleValue_littleBytes (n v : Nat) : littleValue (littleBytes n v) = v % 256 ^ n := by
  induction n generalizing v with
  | zero => exact (Nat.mod_one v).symm
  | succ n ih =>
    have hsplit : v % (256 * 256 ^ n) = v % 256 + 256 * (v / 256 % 256 ^ n) := Nat.mod_mul
    rw [littleBytes, littleValue, ih, UInt8.toNat_ofNat', show 256 ^ (n + 1) = 256 * 256 ^ n from Nat.pow_succ', hsplit]

abbrev Memory := Nat → BitVec 8

namespace Memory

variable (m : Memory)

def store (p : Nat) (bytes : List (BitVec 8)) : Memory :=
  fun i => if p ≤ i then bytes.getD (i - p) (m i) else m i

/-- The bytes are in memory at `p`. -/
def Holds (p : Nat) (bytes : List (BitVec 8)) : Prop := ∀ i (h : i < bytes.length), m (p + i) = bytes[i]

def word (w p : Nat) : BitVec (8 * w) := netWord w ((List.range w).map fun i => m (p + i)) 0

def readBytes (p n : Nat) : List (BitVec 8) := (List.range n).map fun i => m (p + i)

theorem store_of_outside {bytes : List (BitVec 8)} (hi : i < p ∨ p + bytes.length ≤ i) : m.store p bytes i = m i := by
  rw [store]
  split
  · have hle : bytes.length ≤ i - p := by omega
    rw [getD_eq_getElem?_getD, List.getElem?_eq_none hle, Option.getD_none]
  · rfl

theorem store_holds (p : Nat) (bytes : List (BitVec 8)) : (m.store p bytes).Holds p bytes := by
  intro i hi
  rw [store, if_pos (Nat.le_add_right p i), Nat.add_sub_cancel_left, getD_eq_getElem _ _ hi]

theorem store_store (p : Nat) (xs ys : List (BitVec 8)) :
    (m.store p xs).store (p + xs.length) ys = m.store p (xs ++ ys) := by
  funext i
  by_cases hlt : i < p + xs.length
  · rw [store_of_outside _ (.inl hlt), store, store]
    split
    · have hin : i - p < xs.length := by omega
      rw [getD_append _ _ _ _ hin]
    · rfl
  · have hge : p + xs.length ≤ i := Nat.le_of_not_lt hlt
    have hsub : i - (p + xs.length) = i - p - xs.length := by omega
    have hout : xs.length ≤ i - p := by omega
    rw [store, if_pos hge, store_of_outside _ (.inr hge), store, if_pos (Nat.le_of_add_right_le hge),
      getD_append_right _ _ _ _ hout, hsub]

variable {m}

theorem holds_append {xs ys : List (BitVec 8)} : m.Holds p (xs ++ ys) ↔ m.Holds p xs ∧ m.Holds (p + xs.length) ys := by
  constructor
  · intro h
    refine ⟨fun i hi => ?_, fun i hi => ?_⟩
    · have hlen : i < (xs ++ ys).length := by
        rw [length_append]
        omega
      rw [h i hlen, getElem_append_left hi]
    · have hlen : xs.length + i < (xs ++ ys).length := by
        rw [length_append]
        omega
      rw [Nat.add_assoc, h _ hlen, getElem_append_right (Nat.le_add_right _ _)]
      simp only [Nat.add_sub_cancel_left]
  · intro h i hi
    rw [length_append] at hi
    by_cases hlt : i < xs.length
    · rw [h.1 i hlt, getElem_append_left hlt]
    · have hrest : i - xs.length < ys.length := by omega
      have hsum : p + i = p + xs.length + (i - xs.length) := by omega
      rw [getElem_append_right (Nat.le_of_not_lt hlt), hsum, h.2 _ hrest]

theorem Holds.byte (h : m.Holds p (b :: bs)) : m p = b := h 0 (Nat.zero_lt_succ _)

theorem Holds.block {f : α → List (BitVec 8)} {xs : List α} (h : m.Holds p (xs.map f).flatten)
    (size : ∀ x, (f x).length = k) {i : Nat} (hi : i < xs.length) : m.Holds (p + k * i) (f xs[i]) := by
  induction xs generalizing p i with
  | nil => cases hi
  | cons x xs ih =>
    rw [map_cons, flatten_cons, holds_append, size x] at h
    cases i with
    | zero => exact h.1
    | succ i =>
      have hnext := ih h.2 (Nat.lt_of_succ_lt_succ hi)
      have hplace : p + k * (i + 1) = p + k + k * i := by
        rw [Nat.mul_succ]
        omega
      rw [hplace]
      exact hnext

theorem Holds.readBytes {bs : List (BitVec 8)} (h : m.Holds p bs) : m.readBytes p bs.length = bs := by
  apply ext_getElem
  · rw [Memory.readBytes, length_map, length_range]
  · intro i _ hi
    simp only [Memory.readBytes]
    rw [getElem_map, getElem_range, h i hi]

theorem Holds.toNat_word {v : Nat} (h : m.Holds p (netBytes w v)) : (m.word w p).toNat = v % 256 ^ w := by
  have hread := h.readBytes
  rw [length_netBytes, Memory.readBytes] at hread
  have hword : (netWord w (netBytes w v ++ []) 0).toNat = v % 256 ^ w := toNat_netWord v []
  rw [append_nil] at hword
  rw [Memory.word, hread, hword]

theorem Holds.word {v : BitVec (8 * w)} (h : m.Holds p (netBytes w v.toNat)) : m.word w p = v := by
  have hlt : v.toNat < 256 ^ w := by
    have hpow : (256 : Nat) ^ w = 2 ^ (8 * w) := by rw [Nat.pow_mul]
    rw [hpow]
    exact v.isLt
  apply eq_of_toNat_eq
  rw [h.toNat_word, Nat.mod_eq_of_lt hlt]

end Memory

end Vpp.Lib
