import Vpp.Mtrie.Tree

namespace Vpp.Mtrie
open List

def bytesFrom (a : Ip4Address) : Nat → Nat → List Nat
  | _, 0 => []
  | k, d + 1 => asU8 a k :: bytesFrom a (k + 1) d

/-- The first `n` bits of the bytes agree. -/
def covers : Nat → List Nat → List Nat → Bool
  | n, c :: cs, b :: bs => b / 2 ^ (8 - n) = c / 2 ^ (8 - n) && covers (n - 8) cs bs
  | _, _, _ => true

theorem asU8_lt (a : Ip4Address) (k : Nat) : asU8 a k < 256 := Nat.mod_lt _ (by decide)

theorem bytesFrom_bytes (a : Ip4Address) (k d : Nat) : Bytes d (bytesFrom a k d) := by
  induction d generalizing k with
  | zero => exact ⟨rfl, by simp [bytesFrom]⟩
  | succ d ih =>
    obtain ⟨hlen, hlt⟩ := ih (k + 1)
    refine ⟨by simp [bytesFrom, hlen], ?_⟩
    intro b hb
    rcases mem_cons.mp hb with rfl | hb
    · exact asU8_lt a k
    · exact hlt b hb

theorem covers_zero (hcs : Bytes d cs) (hbs : Bytes d bs) : covers 0 cs bs = true := by
  induction d generalizing cs bs with
  | zero =>
    obtain rfl := length_eq_zero_iff.mp hcs.1
    simp [covers]
  | succ d ih =>
    cases cs with
    | nil => simp [covers]
    | cons c cs =>
      cases bs with
      | nil => simp [covers]
      | cons b bs =>
        have hc := hcs.2 c (.head _)
        have hb := hbs.2 b (.head _)
        rw [covers, ih hcs.tail hbs.tail, Nat.div_eq_of_lt (show b < 2 ^ (8 - 0) from hb),
          Nat.div_eq_of_lt (show c < 2 ^ (8 - 0) from hc)]
        rfl

theorem mem_range'_iff (hm : 0 < m) (hc : c % m = 0) : b ∈ List.range' c m ↔ b / m = c / m := by
  rw [mem_range'_1]
  constructor
  · rintro ⟨h1, h2⟩
    have hcm : c = m * (c / m) := (Nat.mul_div_cancel' (Nat.dvd_of_mod_eq_zero hc)).symm
    refine Nat.div_eq_of_lt_le ?_ ?_
    · rw [Nat.mul_comm]
      omega
    · rw [Nat.add_mul, Nat.one_mul, Nat.mul_comm]
      omega
  · intro he
    have hcm : m * (c / m) = c := Nat.mul_div_cancel' (Nat.dvd_of_mod_eq_zero hc)
    have hdiv := Nat.div_add_mod b m
    have hlt := Nat.mod_lt b hm
    rw [he, hcm] at hdiv
    omega

theorem and_shiftLeft_mask (x len s : Nat) (hx : x < 2 ^ (len + s)) :
    x &&& ((2 ^ len - 1) <<< s) = x / 2 ^ s * 2 ^ s := by
  rw [← Nat.shiftLeft_eq, ← Nat.shiftRight_eq_div_pow]
  apply Nat.eq_of_testBit_eq
  intro i
  simp only [Nat.testBit_and, Nat.testBit_shiftLeft, Nat.testBit_shiftRight, Nat.testBit_two_pow_sub_one]
  by_cases hs : s ≤ i
  · rw [Nat.add_sub_cancel' hs]
    by_cases hi : i - s < len
    · simp [hs, hi]
    · have hpow : x < 2 ^ i := Nat.lt_of_lt_of_le hx (Nat.pow_le_pow_right (by decide) (by omega))
      simp [Nat.testBit_lt_two_pow hpow]
  · simp [hs]

theorem toNat_and_fibMask (a : Ip4Address) (hlen : len ≤ 32) :
    (a &&& fibMask len).toNat = a.toNat / 2 ^ (32 - len) * 2 ^ (32 - len) := by
  have ha : a.toNat < 2 ^ (len + (32 - len)) := by
    rw [Nat.add_sub_cancel' hlen]
    exact a.isLt
  by_cases h : len < 32
  · have hmask : (2 ^ len - 1) <<< (32 - len) < 2 ^ 32 := by
      rw [Nat.shiftLeft_eq, Nat.sub_mul, ← Nat.pow_add, Nat.add_sub_cancel' hlen]
      have := Nat.two_pow_pos (32 - len)
      omega
    rw [fibMask, if_pos h, BitVec.toNat_and, BitVec.toNat_ofNat, Nat.mod_eq_of_lt hmask]
    exact and_shiftLeft_mask _ _ _ ha
  · have h32 : len = 32 := by omega
    subst h32
    rw [fibMask, if_neg h, show a &&& ~~~0 = a from BitVec.and_allOnes]
    simp

theorem and_fibMask_eq_iff (a b : Ip4Address) (hlen : len ≤ 32) :
    a &&& fibMask len = b &&& fibMask len ↔
      a.toNat / 2 ^ (32 - len) = b.toNat / 2 ^ (32 - len) := by
  rw [← BitVec.toNat_inj, toNat_and_fibMask a hlen, toNat_and_fibMask b hlen]
  exact Nat.mul_left_inj (Nat.two_pow_pos _).ne'

theorem and_fibMask_of_le (h : a &&& fibMask len = b &&& fibMask len) (hle : i ≤ len) (hlen : len ≤ 32) :
    a &&& fibMask i = b &&& fibMask i := by
  rw [and_fibMask_eq_iff a b hlen] at h
  rw [and_fibMask_eq_iff a b (by omega)]
  have hpow : 2 ^ (32 - i) = 2 ^ (32 - len) * 2 ^ (len - i) := by
    rw [← Nat.pow_add]
    congr 1
    omega
  rw [hpow, ← Nat.div_div_eq_div_mul, ← Nat.div_div_eq_div_mul, h]

theorem and_fibMask_idem (a : Ip4Address) : (a &&& fibMask len) &&& fibMask len = a &&& fibMask len := by
  rw [BitVec.and_assoc, BitVec.and_self]

theorem and_fibMask_zero (a : Ip4Address) : a &&& fibMask 0 = 0 := BitVec.and_zero

theorem masked_byte (a : Ip4Address) (hlen : len ≤ 32) (hk : 8 * k < len) (hend : len ≤ 8 * (k + 1)) :
    asU8 (a &&& fibMask len) k % 2 ^ (8 * (k + 1) - len) = 0 := by
  have hpow : 2 ^ (32 - len) = 2 ^ (8 * (k + 1) - len) * 2 ^ (24 - 8 * k) := by
    rw [← Nat.pow_add]
    congr 1
    omega
  have hdvd : 2 ^ (8 * (k + 1) - len) ∣ 256 := Nat.pow_dvd_pow 2 (show 8 * (k + 1) - len ≤ 8 by omega)
  rw [asU8, toNat_and_fibMask a hlen, hpow, ← Nat.mul_assoc, Nat.mul_div_cancel _ (Nat.two_pow_pos _),
    Nat.mod_mod_of_dvd _ hdvd, Nat.mul_mod_left]

theorem mod_succ_byte (a : Ip4Address) (hkd : k + (d + 1) = 4) :
    a.toNat % 2 ^ (8 * (d + 1)) = asU8 a k * 2 ^ (8 * d) + a.toNat % 2 ^ (8 * d) := by
  have he : 24 - 8 * k = 8 * d := by omega
  rw [asU8, he, show 8 * (d + 1) = 8 * d + 8 by omega, Nat.pow_add, Nat.mod_mul, Nat.add_comm,
    Nat.mul_comm]

theorem mul_add_inj {b c m x y : Nat} (hx : x < m) (hy : y < m) : b * m + x = c * m + y ↔ b = c ∧ x = y := by
  constructor
  · intro h
    have hmod : (b * m + x) % m = (c * m + y) % m := by rw [h]
    rw [Nat.mul_add_mod', Nat.mul_add_mod', Nat.mod_eq_of_lt hx, Nat.mod_eq_of_lt hy] at hmod
    subst hmod
    exact ⟨Nat.eq_of_mul_eq_mul_right (by omega) (Nat.add_right_cancel h), rfl⟩
  · rintro ⟨rfl, rfl⟩
    rfl

theorem covers_iff_div (a P : Ip4Address) (hkd : k + d = 4) :
    covers n (bytesFrom P k d) (bytesFrom a k d) = true ↔
      a.toNat % 2 ^ (8 * d) / 2 ^ (8 * d - n) = P.toNat % 2 ^ (8 * d) / 2 ^ (8 * d - n) := by
  induction d generalizing k n with
  | zero => simp [bytesFrom, covers, Nat.mod_one]
  | succ d ih =>
    rw [bytesFrom, bytesFrom, covers, Bool.and_eq_true, decide_eq_true_eq, ih (by omega),
      mod_succ_byte a hkd, mod_succ_byte P hkd]
    have ha : a.toNat % 2 ^ (8 * d) < 2 ^ (8 * d) := Nat.mod_lt _ (Nat.two_pow_pos _)
    have hP : P.toNat % 2 ^ (8 * d) < 2 ^ (8 * d) := Nat.mod_lt _ (Nat.two_pow_pos _)
    by_cases hn : n ≤ 8
    · have hhead (c r : Nat) (hr : r < 2 ^ (8 * d)) :
          (c * 2 ^ (8 * d) + r) / 2 ^ (8 * (d + 1) - n) = c / 2 ^ (8 - n) := by
        rw [show 8 * (d + 1) - n = 8 * d + (8 - n) by omega, Nat.pow_add, ← Nat.div_div_eq_div_mul,
          Nat.mul_comm c, Nat.mul_add_div (Nat.two_pow_pos _), Nat.div_eq_of_lt hr, Nat.add_zero]
      rw [hhead _ _ ha, hhead _ _ hP, show n - 8 = 0 by omega, Nat.sub_zero, Nat.div_eq_of_lt ha,
        Nat.div_eq_of_lt hP]
      simp
    · have he : 8 * d - (n - 8) = 8 * (d + 1) - n := by omega
      have hsplit : 2 ^ (8 * d) = 2 ^ (8 * d - (8 * (d + 1) - n)) * 2 ^ (8 * (d + 1) - n) := by
        rw [← Nat.pow_add]
        congr 1
        omega
      have htail (c r : Nat) : (c * 2 ^ (8 * d) + r) / 2 ^ (8 * (d + 1) - n) =
          c * 2 ^ (8 * d - (8 * (d + 1) - n)) + r / 2 ^ (8 * (d + 1) - n) := by
        rw [hsplit, ← Nat.mul_assoc, Nat.mul_comm _ (2 ^ (8 * (d + 1) - n)),
          Nat.mul_add_div (Nat.two_pow_pos _)]
      rw [hsplit, ← Nat.div_lt_iff_lt_mul (Nat.two_pow_pos _)] at ha hP
      rw [he, show 8 - n = 0 by omega, Nat.pow_zero, Nat.div_one, Nat.div_one, htail, htail,
        hsplit, mul_add_inj ha hP]

theorem covers_iff_mask (a P : Ip4Address) (hlen : len ≤ 32) :
    covers len (bytesFrom P 0 4) (bytesFrom a 0 4) = true ↔
      a &&& fibMask len = P &&& fibMask len := by
  rw [covers_iff_div a P rfl, and_fibMask_eq_iff a P hlen, Nat.mod_eq_of_lt a.isLt,
    Nat.mod_eq_of_lt P.isLt]

theorem exists_bytesFrom (h : Bytes 4 bs) : ∃ a, bytesFrom a 0 4 = bs := by
  obtain ⟨hlen, hlt⟩ := h
  obtain ⟨b₀, b₁, b₂, b₃, rfl⟩ := length_eq_four.mp hlen
  simp only [mem_cons, not_mem_nil, or_false, forall_eq_or_imp, forall_eq] at hlt
  refine ⟨BitVec.ofNat 32 (b₀ * 2 ^ 24 + b₁ * 2 ^ 16 + b₂ * 2 ^ 8 + b₃), ?_⟩
  simp only [bytesFrom, asU8, BitVec.toNat_ofNat, List.cons.injEq, and_true]
  norm_num
  omega

/-- The installed prefixes: the adjacency index for a length and a masked address. -/
abbrev Routes := Nat → Ip4Address → Option Nat

def Routes.set (routes : Routes) (len : Nat) (key : Ip4Address) (v : Option Nat) : Routes :=
  fun len' key' => if len' = len ∧ key' = key then v else routes len' key'

/-- The leaf and the length of the longest prefix that covers an address, among the lengths from 1 to
`n`. -/
def bestMatch (routes : Routes) (a : Ip4Address) : Nat → Leaf × Nat
  | 0 => (leafEmpty, 0)
  | n + 1 =>
    match routes (n + 1) (a &&& fibMask (n + 1)) with
    | some adj => (leafSetAdjIndex adj, n + 1)
    | none => bestMatch routes a n

variable {routes : Routes}

theorem bestMatch_of_some (h : routes (n + 1) (a &&& fibMask (n + 1)) = some adj) :
    bestMatch routes a (n + 1) = (leafSetAdjIndex adj, n + 1) := by
  rw [bestMatch, h]

theorem bestMatch_of_none (h : routes (n + 1) (a &&& fibMask (n + 1)) = none) :
    bestMatch routes a (n + 1) = bestMatch routes a n := by
  rw [bestMatch, h]

theorem bestMatch_le (routes : Routes) (a : Ip4Address) (n : Nat) : (bestMatch routes a n).2 ≤ n := by
  induction n with
  | zero => exact Nat.le_refl 0
  | succ n ih =>
    simp only [bestMatch]
    split
    · exact Nat.le_refl _
    · exact Nat.le_succ_of_le ih

theorem bestMatch_of_le (h : (bestMatch routes a n).2 ≤ m) (hmn : m ≤ n) :
    bestMatch routes a n = bestMatch routes a m := by
  induction n with
  | zero => rw [Nat.le_zero.mp hmn]
  | succ n ih =>
    rcases Nat.lt_or_eq_of_le hmn with hlt | rfl
    · simp only [bestMatch] at h ⊢
      split at h
      · exact absurd h (Nat.not_le.mpr hlt)
      · exact ih h (Nat.le_of_lt_succ hlt)
    · rfl

theorem bestMatch_congr (h : ∀ i, 0 < i → i ≤ n →
      routes i (a &&& fibMask i) = routes' i (b &&& fibMask i)) :
    bestMatch routes a n = bestMatch routes' b n := by
  induction n with
  | zero => rfl
  | succ n ih =>
    simp only [bestMatch, h (n + 1) (Nat.succ_pos n) (Nat.le_refl _)]
    rw [ih fun i hi hle => h i hi (Nat.le_succ_of_le hle)]

theorem bestMatch_eq_of_covers (h : a &&& fibMask len = b &&& fibMask len) (hn : n ≤ len) (hlen : len ≤ 32) :
    bestMatch routes a n = bestMatch routes b n := by
  apply bestMatch_congr
  intro i _ hi
  rw [and_fibMask_of_le h (Nat.le_trans hi hn) hlen]

theorem bestMatch_cases (routes : Routes) (a : Ip4Address) (n : Nat) :
    bestMatch routes a n = (leafEmpty, 0) ∨ ∃ i adj, 0 < i ∧ i ≤ n ∧
      routes i (a &&& fibMask i) = some adj ∧ bestMatch routes a n = (leafSetAdjIndex adj, i) := by
  induction n with
  | zero => exact .inl rfl
  | succ n ih =>
    simp only [bestMatch]
    split
    · next adj hr => exact .inr ⟨n + 1, adj, Nat.succ_pos n, Nat.le_refl _, hr, rfl⟩
    · rcases ih with h | ⟨i, adj, hi, hle, hr, h⟩
      · exact .inl h
      · exact .inr ⟨i, adj, hi, Nat.le_succ_of_le hle, hr, h⟩

theorem le_bestMatch (hr : routes i (a &&& fibMask i) = some adj) (hle : i ≤ n) :
    i ≤ (bestMatch routes a n).2 := by
  induction n with
  | zero => exact hle
  | succ n ih =>
    simp only [bestMatch]
    rcases Nat.lt_or_eq_of_le hle with hlt | rfl
    · split
      · exact hle
      · exact ih (Nat.le_of_lt_succ hlt)
    · rw [hr]

theorem bestMatch_zero (h : (bestMatch routes a n).2 = 0) : bestMatch routes a n = (leafEmpty, 0) := by
  rcases bestMatch_cases routes a n with he | ⟨i, adj, hi, _, _, he⟩
  · exact he
  · rw [he] at h
    exact absurd h hi.ne'

/-- A new prefix wins over the matches that are not longer. -/
theorem bestMatch_set_some (hpos : 0 < len) (n : Nat) :
    bestMatch (routes.set len key (some adj)) a n =
      if len ≤ n ∧ a &&& fibMask len = key ∧ (bestMatch routes a n).2 ≤ len
      then (leafSetAdjIndex adj, len) else bestMatch routes a n := by
  induction n with
  | zero =>
    rw [if_neg fun h => absurd h.1 (Nat.not_le.mpr hpos)]
    rfl
  | succ n ih =>
    by_cases hn : n + 1 = len ∧ a &&& fibMask (n + 1) = key
    · obtain ⟨rfl, rfl⟩ := hn
      rw [if_pos ⟨Nat.le_refl _, rfl, bestMatch_le routes a (n + 1)⟩]
      simp [bestMatch, Routes.set]
    · have hset : routes.set len key (some adj) (n + 1) (a &&& fibMask (n + 1)) =
          routes (n + 1) (a &&& fibMask (n + 1)) := if_neg hn
      have hle : len ≤ n + 1 ∧ a &&& fibMask len = key ↔ len ≤ n ∧ a &&& fibMask len = key := by
        constructor
        · rintro ⟨h, hk⟩
          rcases Nat.lt_or_eq_of_le h with hlt | rfl
          · exact ⟨Nat.le_of_lt_succ hlt, hk⟩
          · exact absurd ⟨rfl, hk⟩ hn
        · exact fun h => ⟨Nat.le_succ_of_le h.1, h.2⟩
      cases hr : routes (n + 1) (a &&& fibMask (n + 1)) with
      | some adj' =>
        rw [bestMatch_of_some (hset.trans hr), bestMatch_of_some hr, if_neg]
        rintro ⟨h, hk, hlt⟩
        exact absurd hlt (Nat.not_le.mpr (Nat.lt_succ_of_le (hle.mp ⟨h, hk⟩).1))
      | none =>
        rw [bestMatch_of_none (hset.trans hr), bestMatch_of_none hr, ih]
        simp only [← and_assoc, hle]

/-- Without a prefix, what it matched goes to the next shorter match. -/
theorem bestMatch_set_none (hpos : 0 < len) (n : Nat) :
    bestMatch (routes.set len key none) a n =
      if a &&& fibMask len = key ∧ (bestMatch routes a n).2 = len
      then bestMatch routes a (len - 1) else bestMatch routes a n := by
  induction n with
  | zero =>
    rw [if_neg fun h => hpos.ne h.2]
    rfl
  | succ n ih =>
    by_cases hn : n + 1 = len ∧ a &&& fibMask (n + 1) = key
    · obtain ⟨rfl, rfl⟩ := hn
      have hset : routes.set (n + 1) (a &&& fibMask (n + 1)) none (n + 1) (a &&& fibMask (n + 1)) = none :=
        if_pos ⟨rfl, rfl⟩
      have hle := bestMatch_le routes a n
      rw [if_neg (by omega)] at ih
      rw [bestMatch_of_none hset, ih, Nat.add_sub_cancel]
      cases hr : routes (n + 1) (a &&& fibMask (n + 1)) with
      | some adj' => rw [bestMatch_of_some hr, if_pos ⟨rfl, rfl⟩]
      | none => rw [bestMatch_of_none hr, if_neg (by omega)]
    · have hset : routes.set len key none (n + 1) (a &&& fibMask (n + 1)) =
          routes (n + 1) (a &&& fibMask (n + 1)) := if_neg hn
      cases hr : routes (n + 1) (a &&& fibMask (n + 1)) with
      | some adj' =>
        rw [bestMatch_of_some (hset.trans hr), bestMatch_of_some hr, if_neg]
        rintro ⟨hk, rfl⟩
        exact hn ⟨rfl, hk⟩
      | none => rw [bestMatch_of_none (hset.trans hr), bestMatch_of_none hr, ih]

theorem bestMatch_set_zero (key : Ip4Address) (v : Option Nat) :
    bestMatch (routes.set 0 key v) a n = bestMatch routes a n := by
  apply bestMatch_congr
  intro i hi _
  exact if_neg fun h => hi.ne' h.1

end Vpp.Mtrie
