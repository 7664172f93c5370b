import Mathlib.Algebra.Order.Ring.Nat
import Mathlib.Data.Nat.Bitwise
import Mathlib.Data.Nat.Count

namespace Vpp.Lib
open List

def ofBytes : List Nat → Nat
  | [] => 0
  | b :: bs => b + 256 * ofBytes bs

theorem ofBytes_cons : ofBytes (b :: bs) = b + 256 * ofBytes bs := rfl

def bytesOf : (n v : Nat) → List Nat
  | 0, _ => []
  | n + 1, v => v % 256 :: bytesOf n (v / 256)

@[simp] theorem length_bytesOf (n v : Nat) : (bytesOf n v).length = n := by
  induction n generalizing v with
  | zero => rfl
  | succ n ih => rw [bytesOf, length_cons, ih]

theorem lt_of_mem_bytesOf {n v b : Nat} (h : b ∈ bytesOf n v) : b < 256 := by
  induction n generalizing v with
  | zero => cases h
  | succ n ih =>
    rcases mem_cons.1 h with rfl | h
    · exact Nat.mod_lt v (by decide)
    · exact ih h

theorem ofBytes_bytesOf {n v : Nat} (h : v < 256 ^ n) : ofBytes (bytesOf n v) = v := by
  induction n generalizing v with
  | zero => exact (Nat.lt_one_iff.1 h).symm
  | succ n ih =>
    have hdiv : v / 256 < 256 ^ n := Nat.div_lt_of_lt_mul (Nat.pow_succ' ▸ h)
    rw [bytesOf, ofBytes_cons, ih hdiv]
    exact Nat.mod_add_div v 256

variable {bs : List Nat}

theorem ofBytes_lt (h : ∀ b ∈ bs, b < 256) : ofBytes bs < 256 ^ bs.length := by
  induction bs with
  | nil => exact Nat.one_pos
  | cons b bs ih =>
    have hb := h b mem_cons_self
    have hrest := ih fun b' hb' => h b' (mem_cons_of_mem b hb')
    rw [length_cons, Nat.pow_succ', ofBytes_cons]
    omega

theorem two_mul_ofBytes_lt (h : ∀ b ∈ bs, b < 128) : 2 * ofBytes bs < 256 ^ bs.length := by
  induction bs with
  | nil => exact Nat.one_pos
  | cons b bs ih =>
    have hb := h b mem_cons_self
    have hrest := ih fun b' hb' => h b' (mem_cons_of_mem b hb')
    rw [length_cons, Nat.pow_succ', ofBytes_cons]
    omega

theorem div_256 {lo : Nat} (h : lo < 256) (hi : Nat) : (lo + 256 * hi) / 256 = hi := by omega

theorem mod_256 {lo : Nat} (h : lo < 256) (hi : Nat) : (lo + 256 * hi) % 256 = lo := by omega

theorem and_bytes (a : Nat) {c : Nat} (hc : c < 256) (m : Nat) :
    a &&& (c + 256 * m) = (a % 256 &&& c) + 256 * (a / 256 &&& m) := by
  have hlow : (a &&& (c + 256 * m)) % 2 ^ 8 = a % 256 &&& c := by
    rw [Nat.and_mod_two_pow]
    exact congrArg (a % 256 &&& ·) (mod_256 hc m)
  have hhigh : (a &&& (c + 256 * m)) / 2 ^ 8 = a / 256 &&& m := by
    rw [Nat.and_div_two_pow]
    exact congrArg (a / 256 &&& ·) (div_256 hc m)
  have hsplit := Nat.mod_add_div (a &&& (c + 256 * m)) (2 ^ 8)
  rw [hlow, hhigh] at hsplit
  exact hsplit.symm

theorem and_of_mod {a b c k : Nat} (hc : c < 2 ^ k) (h : a % 2 ^ k = b % 2 ^ k) : a &&& c = b &&& c := by
  have hlow (x : Nat) : x &&& c = x % 2 ^ k &&& c := by
    have hmod := Nat.and_mod_two_pow (a := x) (b := c) (n := k)
    rw [Nat.mod_eq_of_lt hc, Nat.mod_eq_of_lt (Nat.lt_of_le_of_lt Nat.and_le_right hc)] at hmod
    exact hmod
  rw [hlow a, hlow b, h]

theorem shift_and_bytes (hbs : ∀ b ∈ bs, b < 256) {s c : Nat} (hs : s ≤ 8) (hc : c < 2 ^ (8 - s)) :
    ofBytes bs / 2 ^ s &&& ofBytes (List.replicate bs.length c) = ofBytes (bs.map fun b => b / 2 ^ s &&& c) := by
  induction bs with
  | nil =>
    rw [map_nil, length_nil, List.replicate_zero, ofBytes, Nat.zero_div, Nat.zero_and]
  | cons b bs ih =>
    have hb := hbs b mem_cons_self
    have hc256 : c < 256 := Nat.lt_of_lt_of_le hc (Nat.pow_le_pow_right (by decide) (Nat.sub_le 8 s))
    have hpow : 2 ^ (8 - s) * 2 ^ s = 256 := by rw [← Nat.pow_add, Nat.sub_add_cancel hs]
    have hquot : (b + 256 * ofBytes bs) / 2 ^ s = b / 2 ^ s + 2 ^ (8 - s) * ofBytes bs := by
      rw [← hpow, Nat.mul_right_comm, Nat.add_mul_div_right _ _ (Nat.two_pow_pos s)]
    have hhigh : (b + 256 * ofBytes bs) / 2 ^ s / 256 = ofBytes bs / 2 ^ s := by
      rw [Nat.div_div_eq_div_mul, Nat.mul_comm (2 ^ s), ← Nat.div_div_eq_div_mul, div_256 hb]
    have hlow : (b + 256 * ofBytes bs) / 2 ^ s % 256 &&& c = b / 2 ^ s &&& c := by
      apply and_of_mod hc
      rw [hquot, ← hpow, Nat.mod_mul_right_mod, Nat.add_mul_mod_self_left]
    rw [length_cons, List.replicate_succ, map_cons, ofBytes_cons, ofBytes_cons, ofBytes_cons,
      and_bytes _ hc256, hhigh, hlow, ih fun b' hb' => hbs b' (mem_cons_of_mem b hb')]

theorem sub_bytes {f : Nat → Nat} (bs : List Nat) (h : ∀ b ∈ bs, f b ≤ b) :
    ofBytes (bs.map f) ≤ ofBytes bs ∧ ofBytes bs - ofBytes (bs.map f) = ofBytes (bs.map fun b => b - f b) := by
  induction bs with
  | nil => exact ⟨Nat.le_refl _, rfl⟩
  | cons b bs ih =>
    have hb := h b mem_cons_self
    obtain ⟨hle, hsub⟩ := ih fun b' hb' => h b' (mem_cons_of_mem b hb')
    simp only [map_cons, ofBytes_cons]
    omega

theorem add_bytes (f g : Nat → Nat) (bs : List Nat) :
    ofBytes (bs.map f) + ofBytes (bs.map g) = ofBytes (bs.map fun b => f b + g b) := by
  induction bs with
  | nil => rfl
  | cons b bs ih =>
    simp only [map_cons, ofBytes_cons]
    omega

theorem halves_bytes (h : ∀ b ∈ bs, b % 16 ≤ 4 ∧ b / 16 ≤ 4) :
    (ofBytes bs + ofBytes bs / 16) &&& ofBytes (List.replicate bs.length 15)
      = ofBytes (bs.map fun b => (b + b / 16) % 16) := by
  induction bs with
  | nil => rfl
  | cons b bs ih =>
    have hb := h b mem_cons_self
    have hrest := ih fun b' hb' => h b' (mem_cons_of_mem b hb')
    have hnext : ofBytes bs % 16 ≤ 4 := by
      cases bs with
      | nil => exact Nat.zero_le 4
      | cons b' bs =>
        have hb' := h b' (mem_cons_of_mem b mem_cons_self)
        rw [ofBytes_cons]
        omega
    have hlow : (b + 256 * ofBytes bs + (b + 256 * ofBytes bs) / 16) % 256 &&& 15 = (b + b / 16) % 16 := by
      have hmod : ∀ x, x &&& 15 = x % 16 := fun x => Nat.and_two_pow_sub_one_eq_mod x 4
      rw [hmod]
      omega
    have hhigh : (b + 256 * ofBytes bs + (b + 256 * ofBytes bs) / 16) / 256 = ofBytes bs + ofBytes bs / 16 := by omega
    rw [length_cons, List.replicate_succ, map_cons, ofBytes_cons, ofBytes_cons, ofBytes_cons,
      and_bytes _ (by decide), hlow, hhigh, hrest]

theorem count_congr {p q : Nat → Prop} [DecidablePred p] [DecidablePred q] {n : Nat} (h : ∀ i < n, (p i ↔ q i)) :
    Nat.count p n = Nat.count q n := by
  apply Nat.le_antisymm
  · exact Nat.count_mono_left fun i hi hp => (h i hi).1 hp
  · exact Nat.count_mono_left fun i hi hq => (h i hi).2 hq

theorem count_below {p : Nat → Prop} [DecidablePred p] {k n : Nat} (h : k ≤ n) :
    Nat.count (fun i => p i ∧ i < k) n = Nat.count p k := by
  obtain ⟨above, rfl⟩ := Nat.exists_eq_add_of_le h
  have hhigh : Nat.count (fun i => p (k + i) ∧ k + i < k) above = 0 :=
    Nat.count_iff_forall_not.2 fun i _ hi => absurd hi.2 (Nat.not_lt.2 (Nat.le_add_right k i))
  rw [Nat.count_add, hhigh, Nat.add_zero]
  exact count_congr fun i hi => and_iff_left hi

theorem count_testBit_bytes (hbs : ∀ b ∈ bs, b < 256) :
    Nat.count (fun i => (ofBytes bs).testBit i) (8 * bs.length) =
        (bs.map fun b => Nat.count (fun i => b.testBit i) 8).sum := by
  induction bs with
  | nil => rfl
  | cons b bs ih =>
    have hb : b < 2 ^ 8 := hbs b mem_cons_self
    have hlow : ∀ i < 8, (b + 256 * ofBytes bs).testBit i = b.testBit i := by
      intro i hi
      have htest := Nat.testBit_two_pow_mul_add (ofBytes bs) hb i
      rw [if_pos hi, Nat.add_comm] at htest
      exact htest
    have hhigh (i : Nat) : (b + 256 * ofBytes bs).testBit (8 + i) = (ofBytes bs).testBit i := by
      have htest := Nat.testBit_two_pow_mul_add (ofBytes bs) hb (8 + i)
      rw [if_neg (by omega), Nat.add_sub_cancel_left, Nat.add_comm] at htest
      exact htest
    rw [length_cons, Nat.mul_succ, Nat.add_comm, Nat.count_add, map_cons, sum_cons,
      ← ih fun b' hb' => hbs b' (mem_cons_of_mem b hb')]
    simp only [ofBytes_cons, hhigh]
    congr 1
    exact count_congr fun i hi => by rw [hlow i hi]

end Vpp.Lib
