import Mathlib.Tactic.Ring
import Vpp.Lib.ByteLanes

namespace Vpp.Infra
open Vpp.Lib List BitVec

def maxPow2 (x : Nat) : Nat :=
  let y := 2 ^ x.log2
  if x > y then y * 2 else y

theorem maxPow2_eq {x : Nat} (hx : 0 < x) : ∃ k, maxPow2 x = 2 ^ k ∧ ∀ i, x ≤ 2 ^ i ↔ k ≤ i := by
  have hlo : 2 ^ x.log2 ≤ x := Nat.log2_self_le (by omega)
  have hhi : x < 2 ^ (x.log2 + 1) := Nat.lt_log2_self
  rw [maxPow2]
  by_cases hgt : x > 2 ^ x.log2
  · refine ⟨x.log2 + 1, by rw [if_pos hgt, pow_succ], fun i => ⟨fun hle => ?_, fun hle => ?_⟩⟩
    · exact (Nat.pow_lt_pow_iff_right (by decide : 1 < 2)).mp (Nat.lt_of_lt_of_le hgt hle)
    · exact Nat.le_trans (Nat.le_of_lt hhi) (Nat.pow_le_pow_right (by decide) hle)
  · have he : x = 2 ^ x.log2 := by omega
    refine ⟨x.log2, by rw [if_neg hgt], fun i => ?_⟩
    conv_lhs => rw [he]
    exact Nat.pow_le_pow_iff_right (by decide)

/-- The number of bits that are set, first in pairs, then in fours, then in bytes. -/
def countSetBits (x : BitVec 64) : BitVec 64 :=
  let c1 : BitVec 64 := 0x5555555555555555
  let c2 : BitVec 64 := 0x3333333333333333
  let c3 : BitVec 64 := 0x0f0f0f0f0f0f0f0f
  let x := x - ((x >>> 1) &&& c1)
  let x := (x &&& c2) + ((x >>> 2) &&& c2)
  let x := (x + (x >>> 4)) &&& c3
  let x := x + (x >>> 8)
  let x := x + (x >>> 16)
  let x := x + (x >>> 32)
  x &&& (2 * 64 - 1)

/-- A power of two, or 0. -/
def isPow2 (x : BitVec 64) : Bool := x &&& (x - 1) = 0

def pairSums (b : Nat) : Nat := b - (b / 2 ^ 1 &&& 0x55)

def fourSums (b : Nat) : Nat := (b / 2 ^ 0 &&& 0x33) + (b / 2 ^ 2 &&& 0x33)

theorem byteSum_eq : ∀ b < 256, fourSums (pairSums b) % 16 ≤ 4 ∧ fourSums (pairSums b) / 16 ≤ 4 ∧
    (fourSums (pairSums b) + fourSums (pairSums b) / 16) % 16 = Nat.count (fun i => b.testBit i) 8 := by
  decide +kernel

theorem pairSums_bytes {bs : List Nat} (h : ∀ b ∈ bs, b < 256) :
    ofBytes bs / 2 ^ 1 &&& ofBytes (List.replicate bs.length 0x55) ≤ ofBytes bs ∧
      ofBytes bs - (ofBytes bs / 2 ^ 1 &&& ofBytes (List.replicate bs.length 0x55)) = ofBytes (bs.map pairSums) := by
  rw [shift_and_bytes h (by decide) (by decide)]
  apply sub_bytes
  intro b _
  exact Nat.le_trans Nat.and_le_left (Nat.div_le_self b _)

theorem fourSums_bytes {bs : List Nat} (h : ∀ b ∈ bs, b < 256) :
    (ofBytes bs / 2 ^ 0 &&& ofBytes (List.replicate bs.length 0x33))
        + (ofBytes bs / 2 ^ 2 &&& ofBytes (List.replicate bs.length 0x33)) = ofBytes (bs.map fourSums) := by
  rw [shift_and_bytes h (by decide) (by decide), shift_and_bytes h (by decide) (by decide), add_bytes]
  rfl

theorem div_of_low {lo m : Nat} (h : lo < m) (hi : Nat) : (lo + m * hi) / m = hi := by
  rw [Nat.add_mul_div_left _ _ (Nat.zero_lt_of_lt h), Nat.div_eq_of_lt h, Nat.zero_add]

theorem sum_bytes {p0 p1 p2 p3 p4 p5 p6 p7 x : Nat} (h0 : p0 ≤ 8) (h1 : p1 ≤ 8) (h2 : p2 ≤ 8) (h3 : p3 ≤ 8)
    (h4 : p4 ≤ 8) (h5 : p5 ≤ 8) (h6 : p6 ≤ 8) (h7 : p7 ≤ 8) (hx : x = ofBytes [p0, p1, p2, p3, p4, p5, p6, p7]) :
    ∃ y z high, x + x / 2 ^ 8 = y ∧ y + y / 2 ^ 16 = z ∧
      z + z / 2 ^ 32 = (p0 + p1 + p2 + p3 + p4 + p5 + p6 + p7) + 256 * high ∧ y ≤ z ∧ high < 2 ^ 55 := by
  have hx8 : x / 2 ^ 8 = ofBytes [p1, p2, p3, p4, p5, p6, p7] := by
    rw [hx, ofBytes]
    exact div_of_low (by omega) _
  have hy : x + x / 2 ^ 8 = (p0 + p1 + 256 * (p1 + p2)) + 2 ^ 16 *
      ofBytes [p2 + p3, p3 + p4, p4 + p5, p5 + p6, p6 + p7, p7] := by
    rw [hx8, hx]
    simp only [ofBytes]
    ring
  have hy16 := div_of_low (show p0 + p1 + 256 * (p1 + p2) < 2 ^ 16 by omega)
    (ofBytes [p2 + p3, p3 + p4, p4 + p5, p5 + p6, p6 + p7, p7])
  have hz : (p0 + p1 + 256 * (p1 + p2)) + 2 ^ 16 * ofBytes [p2 + p3, p3 + p4, p4 + p5, p5 + p6, p6 + p7, p7]
        + ofBytes [p2 + p3, p3 + p4, p4 + p5, p5 + p6, p6 + p7, p7]
      = ofBytes [p0 + p1 + p2 + p3, p1 + p2 + p3 + p4, p2 + p3 + p4 + p5, p3 + p4 + p5 + p6]
        + 2 ^ 32 * ofBytes [p4 + p5 + p6 + p7, p5 + p6 + p7, p6 + p7, p7] := by
    simp only [ofBytes]
    ring
  have hlow : ofBytes [p0 + p1 + p2 + p3, p1 + p2 + p3 + p4, p2 + p3 + p4 + p5, p3 + p4 + p5 + p6] < 2 ^ 32 := by
    simp only [ofBytes]
    omega
  have hz32 := div_of_low hlow (ofBytes [p4 + p5 + p6 + p7, p5 + p6 + p7, p6 + p7, p7])
  refine ⟨_, _, ofBytes [p1 + p2 + p3 + p4 + p5 + p6 + p7, p2 + p3 + p4 + p5 + p6 + p7, p3 + p4 + p5 + p6 + p7,
    p4 + p5 + p6 + p7, p5 + p6 + p7, p6 + p7, p7], hy, (congrArg _ hy16).trans hz, ?_, ?_, ?_⟩
  · rw [hz32]
    simp only [ofBytes]
    ring
  · rw [← hz]
    exact Nat.le_add_right _ _
  · simp only [ofBytes]
    omega

theorem byteSums (b : Nat) (hb : b < 256) : fourSums (pairSums b) < 256 ∧ pairSums b < 256 := by
  have hsum := byteSum_eq b hb
  have hpair : pairSums b ≤ b := Nat.sub_le _ _
  omega

theorem toNat_add_of_lt {x y : BitVec 64} (h : x.toNat + y.toNat < 2 ^ 64) : (x + y).toNat = x.toNat + y.toNat := by
  rw [toNat_add, Nat.mod_eq_of_lt h]

theorem toNat_shift (x : BitVec 64) (s : Nat) : (x >>> s).toNat = x.toNat / 2 ^ s := by
  rw [toNat_ushiftRight, Nat.shiftRight_eq_div_pow]

/-- The last three sums, on words. -/
theorem wordSum_eq {x : BitVec 64} {p0 p1 p2 p3 p4 p5 p6 p7 : Nat} (h : ∀ p ∈ [p0, p1, p2, p3, p4, p5, p6, p7], p ≤ 8)
    (hx : x.toNat = ofBytes [p0, p1, p2, p3, p4, p5, p6, p7]) {y z : BitVec 64} (hy : y = x + (x >>> 8))
    (hz : z = y + (y >>> 16)) : ((z + (z >>> 32)) &&& (2 * 64 - 1)).toNat = [p0, p1, p2, p3, p4, p5, p6, p7].sum := by
  have hbound (p : Nat) (hp : p ∈ [p0, p1, p2, p3, p4, p5, p6, p7]) : p ≤ 8 := h p hp
  obtain ⟨y', z', high, hy', hz', hsum, hle, hhigh⟩ := sum_bytes (hbound p0 (by simp)) (hbound p1 (by simp))
    (hbound p2 (by simp)) (hbound p3 (by simp)) (hbound p4 (by simp)) (hbound p5 (by simp)) (hbound p6 (by simp))
    (hbound p7 (by simp)) hx
  have htotal : p0 + p1 + p2 + p3 + p4 + p5 + p6 + p7 ≤ 64 := by
    have := hbound p0 (by simp)
    have := hbound p1 (by simp)
    have := hbound p2 (by simp)
    have := hbound p3 (by simp)
    have := hbound p4 (by simp)
    have := hbound p5 (by simp)
    have := hbound p6 (by simp)
    have := hbound p7 (by simp)
    omega
  have hlast : z' + z' / 2 ^ 32 < 2 ^ 64 := by
    rw [hsum]
    omega
  have hz64 : z' < 2 ^ 64 := Nat.lt_of_le_of_lt (Nat.le_add_right _ _) hlast
  have hytoNat : y.toNat = y' := by
    rw [hy, toNat_add_of_lt]
    · rw [toNat_shift]
      exact hy'
    · rw [toNat_shift, hy']
      exact Nat.lt_of_le_of_lt hle hz64
  have hztoNat : z.toNat = z' := by
    rw [hz, toNat_add_of_lt]
    · rw [toNat_shift, hytoNat]
      exact hz'
    · rw [toNat_shift, hytoNat, hz']
      exact hz64
  have hwtoNat : (z + (z >>> 32)).toNat = z' + z' / 2 ^ 32 := by
    rw [toNat_add_of_lt]
    · rw [toNat_shift, hztoNat]
    · rw [toNat_shift, hztoNat]
      exact hlast
  have hmask : (2 * 64 - 1 : BitVec 64).toNat = 2 ^ 7 - 1 := by decide
  rw [toNat_and, hwtoNat, hmask, Nat.and_two_pow_sub_one_eq_mod, hsum]
  simp only [sum_cons, sum_nil]
  omega

section
variable {x : BitVec 64} {bs : List Nat}

theorem pairs_word (hx : x.toNat = ofBytes bs) (hlen : bs.length = 8) (hbytes : ∀ b ∈ bs, b < 256) :
    (x - ((x >>> 1) &&& 0x5555555555555555)).toNat = ofBytes (bs.map pairSums) := by
  have hc : (0x5555555555555555 : BitVec 64).toNat = ofBytes (List.replicate bs.length 0x55) := by
    rw [hlen]
    decide
  have hand : ((x >>> 1) &&& 0x5555555555555555).toNat = ofBytes bs / 2 ^ 1 &&&
      ofBytes (List.replicate bs.length 0x55) := by
    rw [toNat_and, toNat_shift, hx, hc]
  obtain ⟨hle, hpairs⟩ := pairSums_bytes hbytes
  rw [← hand, ← hx] at hle hpairs
  rw [toNat_sub_of_le (le_def.2 hle), hpairs]

theorem fours_word (hx : x.toNat = ofBytes bs) (hlen : bs.length = 8) (hbytes : ∀ b ∈ bs, b < 256)
    (hsums : ∀ b ∈ bs.map fourSums, b < 256) :
    ((x &&& (0x3333333333333333 : BitVec 64)) + ((x >>> 2) &&& 0x3333333333333333)).toNat
      = ofBytes (bs.map fourSums) := by
  have hc : (0x3333333333333333 : BitVec 64).toNat = ofBytes (List.replicate bs.length 0x33) := by
    rw [hlen]
    decide
  have hlow : (x &&& (0x3333333333333333 : BitVec 64)).toNat = ofBytes bs / 2 ^ 0 &&&
      ofBytes (List.replicate bs.length 0x33) := by
    rw [toNat_and, hx, hc, Nat.pow_zero, Nat.div_one]
  have hhigh : ((x >>> 2) &&& 0x3333333333333333).toNat
      = ofBytes bs / 2 ^ 2 &&& ofBytes (List.replicate bs.length 0x33) := by
    rw [toNat_and, toNat_shift, hx, hc]
  have hfours := fourSums_bytes hbytes
  rw [← hlow, ← hhigh] at hfours
  have hlt := ofBytes_lt hsums
  rw [length_map, hlen] at hlt
  rw [toNat_add_of_lt (hfours ▸ hlt), hfours]

theorem halves_word (hx : x.toNat = ofBytes bs) (hlen : bs.length = 8) (hsmall : ∀ b ∈ bs, b % 16 ≤ 4 ∧ b / 16 ≤ 4) :
    ((x + (x >>> 4)) &&& 0x0f0f0f0f0f0f0f0f).toNat = ofBytes (bs.map fun b => (b + b / 16) % 16) := by
  have hc : (0x0f0f0f0f0f0f0f0f : BitVec 64).toNat = ofBytes (List.replicate bs.length 15) := by
    rw [hlen]
    decide
  have hroom := two_mul_ofBytes_lt fun b hb => by
    have := hsmall b hb
    omega
  rw [hlen] at hroom
  have hsum : (x + (x >>> 4)).toNat = ofBytes bs + ofBytes bs / 16 := by
    have hpow : 2 ^ 4 = 16 := by decide
    have hshift : (x >>> 4).toNat = ofBytes bs / 16 := by rw [toNat_shift, hx, hpow]
    rw [toNat_add_of_lt, hshift, hx]
    rw [hshift, hx]
    exact Nat.lt_of_le_of_lt (Nat.add_le_add_left (Nat.div_le_self _ _) _) (Nat.two_mul _ ▸ hroom)
  rw [toNat_and, hsum, hc]
  exact halves_bytes hsmall

end

/-- **Population count**: the sums give the number of bits that are set. -/
theorem countSetBits_eq (x : BitVec 64) : (countSetBits x).toNat = Nat.count (fun i => x.getLsbD i) 64 := by
  have hbytes : ∀ b ∈ bytesOf 8 x.toNat, b < 256 := fun b hb => lt_of_mem_bytesOf hb
  have hx : x.toNat = ofBytes (bytesOf 8 x.toNat) := (ofBytes_bytesOf x.isLt).symm
  have hlen := length_bytesOf 8 x.toNat
  have hcount := count_testBit_bytes hbytes
  rw [← hx, hlen] at hcount
  have hpairs := pairs_word hx hlen hbytes
  have hfours := fours_word hpairs (by rw [length_map, hlen])
    (by
      intro b hb
      obtain ⟨a, ha, rfl⟩ := List.mem_map.1 hb
      exact (byteSums a (hbytes a ha)).2)
    (by
      intro b hb
      rw [List.map_map] at hb
      obtain ⟨a, ha, rfl⟩ := List.mem_map.1 hb
      exact (byteSums a (hbytes a ha)).1)
  have hhalves := halves_word hfours (by rw [length_map, length_map, hlen])
    (by
      intro b hb
      rw [List.map_map] at hb
      obtain ⟨a, ha, rfl⟩ := List.mem_map.1 hb
      exact ⟨(byteSum_eq a (hbytes a ha)).1, (byteSum_eq a (hbytes a ha)).2.1⟩)
  have hsame : ((((bytesOf 8 x.toNat).map pairSums).map fourSums).map fun b => (b + b / 16) % 16)
      = (bytesOf 8 x.toNat).map fun b => Nat.count (fun i => b.testBit i) 8 := by
    rw [List.map_map, List.map_map]
    exact map_congr_left fun b hb => (byteSum_eq b (hbytes b hb)).2.2
  rw [hsame] at hhalves
  have hsmall : ∀ p ∈ (bytesOf 8 x.toNat).map (fun b => Nat.count (fun i => b.testBit i) 8), p ≤ 8 := by
    intro p hp
    obtain ⟨b, _, rfl⟩ := List.mem_map.1 hp
    exact Nat.count_le _
  have hsum := wordSum_eq hsmall hhalves rfl rfl
  exact hsum.trans hcount.symm

theorem two_pow_of_and_sub_one {n : Nat} (hn : n ≠ 0) (h : n &&& (n - 1) = 0) : n = 2 ^ n.log2 := by
  obtain ⟨r, hr⟩ := Nat.exists_eq_add_of_le (Nat.log2_self_le hn)
  have hlt : n < 2 ^ n.log2 + 2 ^ n.log2 := by
    rw [← Nat.two_mul, ← Nat.pow_succ']
    exact Nat.lt_log2_self
  have hrlt : r < 2 ^ n.log2 := by omega
  cases r with
  | zero => exact hr
  | succ r =>
    -- the top bit of the number is also in what is below it
    have hsub : n - 1 = 2 ^ n.log2 + r := by omega
    have htop : n.testBit n.log2 = true := by
      rw [congrArg (fun x => Nat.testBit x n.log2) hr, Nat.testBit_two_pow_add_eq, Nat.testBit_lt_two_pow hrlt]
      rfl
    have htop' : (n - 1).testBit n.log2 = true := by
      rw [hsub, Nat.testBit_two_pow_add_eq, Nat.testBit_lt_two_pow (Nat.lt_of_succ_lt hrlt)]
      rfl
    have hand := congrArg (fun x => Nat.testBit x n.log2) h
    rw [Nat.testBit_and, htop, htop', Nat.zero_testBit] at hand
    cases hand

theorem countSetBits_of_isPow2 {x : BitVec 64} (h : isPow2 x = true) :
    (countSetBits x).toNat = (decide (x ≠ 0)).toNat := by
  by_cases hx : x = 0
  · subst hx
    decide
  · have hn : x.toNat ≠ 0 := fun h0 => hx (eq_of_toNat_eq h0)
    have hone : 1 ≤ x := le_def.2 (Nat.one_le_iff_ne_zero.2 hn)
    have hand : x.toNat &&& (x.toNat - 1) = 0 := by
      have hzero := congrArg BitVec.toNat (of_decide_eq_true h)
      rw [toNat_and, toNat_sub_of_le hone] at hzero
      exact hzero
    have hpow := two_pow_of_and_sub_one hn hand
    have hlog : x.toNat.log2 < 64 := (Nat.log2_lt hn).2 x.isLt
    have hbit : ∀ i < 64, (x.getLsbD i = true ↔ i = x.toNat.log2) := by
      intro i _
      rw [BitVec.getLsbD, congrArg (fun y => Nat.testBit y i) hpow, Nat.testBit_two_pow, decide_eq_true_iff]
      exact eq_comm
    rw [countSetBits_eq, count_congr hbit, Nat.count_eq_card_filter_range, Finset.filter_eq',
      if_pos (Finset.mem_range.2 hlog), Finset.card_singleton, decide_eq_true hx]
    rfl

end Vpp.Infra
