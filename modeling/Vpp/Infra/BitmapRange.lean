import Vpp.Infra.Bitmap

namespace Vpp.Infra
open Vpp.Lib List BitVec

/-- `undef` is what a shift by all the bits of a word or more gives. -/
def pow2Mask (undef : Nat → Word) (x : Nat) : Word := (if x < 64 then 1#64 <<< x else undef x) - 1

def clibBitmapGetMultiple (bitmap : Bitmap) (i nBits : Word) : Word :=
  let l := bitmap.length
  let i0 := i.toNat / 64
  let i1 := i.toNat % 64
  let result : Word :=
    if i0 < l then
      let result := bitmap.getD i0 0 >>> i1
      if nBits.toNat < 64 then result &&& ((1#64 <<< nBits.toNat) - 1) else result
    else 0
  -- overlap into the next word
  let i0 := i0 + 1
  if i1 + nBits.toNat > 64 ∧ i0 < l then
    let nBits := nBits.toNat - (64 - i1)
    result ||| (bitmap.getD i0 0 &&& ((1#64 <<< nBits) - 1)) <<< (64 - i1)
  else result

/-- `none` when the first word is past the end of the vector. -/
def clibBitmapSetMultiple (bitmap : Bitmap) (i value nBits : Word) : Option Bitmap :=
  let i0 := i.toNat / 64
  let i1 := i.toNat % 64
  let bitmap := vecValidate bitmap ((i + nBits).toNat / 64)
  let l := bitmap.length
  let m : Word := if nBits.toNat < 64 then (1#64 <<< nBits.toNat) - 1 else -1
  let value := value &&& m
  if i0 < l then
    let t := bitmap.getD i0 0 &&& ~~~(m <<< i1) ||| value <<< i1
    let bitmap := bitmap.set i0 t
    let i0 := i0 + 1
    if i1 + nBits.toNat > 64 ∧ i0 < l then
      let t := 64 - i1
      let value := value >>> t
      let nBits := nBits.toNat - t
      let m := (1#64 <<< nBits) - 1
      some (bitmap.set i0 (bitmap.getD i0 0 &&& ~~~m ||| value))
    else some bitmap
  else none

def setMask (value mask : Word) (bitmap : Bitmap) (a0 : Nat) : Bitmap :=
  bitmap.set a0 (if value ≠ 0 then bitmap.getD a0 0 ||| mask else bitmap.getD a0 0 &&& ~~~mask)

/-- The loop over the `n` words between the first and the last. -/
def fillWords (x : Word) : Bitmap → Nat → Nat → Bitmap
  | bitmap, _, 0 => bitmap
  | bitmap, a0, n + 1 => fillWords x (bitmap.set a0 x) (a0 + 1) n

/-- `none` when the first word is past the end of the vector. -/
def clfibBitmapSetRegion (undef : Nat → Word) (bitmap : Bitmap) (i value nBits : Word) : Option Bitmap :=
  let a0 := i.toNat / 64
  let a1 := i.toNat % 64
  let iEnd := i + nBits
  let b0 := iEnd.toNat / 64
  let bitmap := vecValidate bitmap b0
  if a0 < bitmap.length then
    let mask : Word := if nBits.toNat < 64 then pow2Mask undef nBits.toNat else -1
    let bitmap := setMask value (mask <<< a1) bitmap a0
    let bitmap := fillWords (if value ≠ 0 then -1 else 0) bitmap (a0 + 1) (b0 - (a0 + 1))
    -- the loop ends at the last word, unless the first one is past it already
    if a0 + 1 ≤ b0 then
      let nBitsLeft := nBits.toNat - (64 - a1)
      some (setMask value (pow2Mask undef nBitsLeft) bitmap b0)
    else some bitmap
  else none

/-- The bits from `i` to `i + n` are those of `f`, and the others as before. -/
def SetsRange (bitmap bitmap' : Bitmap) (i n : Nat) (f : Nat → Bool) : Prop :=
  ∀ j, clibBitmapGet bitmap' j = if i ≤ j ∧ j < i + n then f (j - i) else clibBitmapGet bitmap j

theorem getLsbD_lowMask (hn : n < 64) (k : Nat) : ((1#64 <<< n) - 1).getLsbD k = decide (k < n) := by
  have hpow : (1#64 <<< n).toNat = 2 ^ n := by
    rw [toNat_shiftLeft, Nat.shiftLeft_eq, show (1#64).toNat = 1 from rfl, Nat.one_mul]
    exact Nat.mod_eq_of_lt (Nat.pow_lt_pow_right (by decide) hn)
  have hle : (1 : Word) ≤ 1#64 <<< n := by
    rw [le_def, hpow]
    exact Nat.one_le_two_pow
  rw [BitVec.getLsbD, toNat_sub_of_le hle, hpow]
  exact Nat.testBit_two_pow_sub_one n k

theorem getLsbD_mask (n : Nat) (hk : k < 64) :
    (if n < 64 then (1#64 <<< n) - 1 else -1 : Word).getLsbD k = decide (k < n) := by
  split
  · next hn => exact getLsbD_lowMask hn k
  · next hn =>
    rw [show (-1 : Word) = BitVec.allOnes 64 from rfl, getLsbD_allOnes, decide_eq_true hk]
    exact (decide_eq_true (by omega)).symm

theorem add_div_mod (i k : Nat) (hk : k < 64) :
    (i % 64 + k < 64 → (i + k) / 64 = i / 64 ∧ (i + k) % 64 = i % 64 + k) ∧
      (64 ≤ i % 64 + k → (i + k) / 64 = i / 64 + 1 ∧ (i + k) % 64 = i % 64 + k - 64) := by
  constructor
  · intro h
    omega
  · intro h
    omega

theorem getLsbD_zero_word (k : Nat) : (0 : Word).getLsbD k = false := getLsbD_zero

theorem getLsbD_firstWord (bitmap : Bitmap) (w s n : Nat) (hk : k < 64) :
    (if w < bitmap.length then
        if n < 64 then bitmap.getD w 0 >>> s &&& ((1#64 <<< n) - 1) else bitmap.getD w 0 >>> s
      else 0 : Word).getLsbD k = (decide (k < n) && (bitmap.getD w 0).getLsbD (s + k)) := by
  split
  · split
    · next hn => rw [getLsbD_and, getLsbD_ushiftRight, getLsbD_lowMask hn, Bool.and_comm]
    · next hn => rw [getLsbD_ushiftRight, decide_eq_true (by omega : k < n), Bool.true_and]
  · next hw =>
    rw [getD_eq_default _ _ (Nat.le_of_not_lt hw), getLsbD_zero_word, getLsbD_zero_word, Bool.and_false]

/-- The bits of the field that are in the word after it. -/
theorem getLsbD_nextWord (bitmap : Bitmap) {w s n : Nat} (hs : s < 64) (hn : n ≤ 64) (hk : k < 64) :
    (if s + n > 64 ∧ w < bitmap.length then
        (bitmap.getD w 0 &&& ((1#64 <<< (n - (64 - s))) - 1)) <<< (64 - s)
      else 0 : Word).getLsbD k =
      (decide (64 ≤ s + k) && (decide (k < n) && (bitmap.getD w 0).getLsbD (s + k - 64))) := by
  split
  · next h =>
    have hlow : n - (64 - s) < 64 := by omega
    rw [getLsbD_shiftLeft, decide_eq_true hk, Bool.true_and, getLsbD_and, getLsbD_lowMask hlow]
    by_cases hover : 64 ≤ s + k
    · have hge : ¬ k < 64 - s := by omega
      have hpos : k - (64 - s) = s + k - 64 := by omega
      have hin : decide (s + k - 64 < n - (64 - s)) = decide (k < n) := decide_eq_decide.mpr (by omega)
      rw [decide_eq_false hge, decide_eq_true hover, hpos, hin, Bool.and_comm (BitVec.getLsbD _ _)]
      rfl
    · rw [decide_eq_true (by omega : k < 64 - s), decide_eq_false hover]
      rfl
  · next h =>
    rw [getLsbD_zero_word]
    by_cases hw : w < bitmap.length
    · by_cases hover : 64 ≤ s + k
      · rw [decide_eq_false (by omega : ¬ k < n), Bool.false_and, Bool.and_false]
      · rw [decide_eq_false hover, Bool.false_and]
    · rw [getD_eq_default _ _ (Nat.le_of_not_lt hw), getLsbD_zero_word, Bool.and_false, Bool.and_false]

theorem clibBitmapGetMultiple_bit (bitmap : Bitmap) (i : Word) {nBits : Word} (hn : nBits.toNat ≤ 64) (k : Nat) :
    (clibBitmapGetMultiple bitmap i nBits).getLsbD k =
      (decide (k < nBits.toNat) && clibBitmapGet bitmap (i.toNat + k)) := by
  by_cases hk : k < 64
  · have hs : i.toNat % 64 < 64 := Nat.mod_lt _ (by decide)
    have hfirst := getLsbD_firstWord bitmap (i.toNat / 64) (i.toNat % 64) nBits.toNat hk
    have hnext := @getLsbD_nextWord k bitmap (i.toNat / 64 + 1) _ _ hs hn hk
    have hor : (clibBitmapGetMultiple bitmap i nBits).getLsbD k =
        ((decide (k < nBits.toNat) && (bitmap.getD (i.toNat / 64) 0).getLsbD (i.toNat % 64 + k)) ||
          (decide (64 ≤ i.toNat % 64 + k) && (decide (k < nBits.toNat) &&
            (bitmap.getD (i.toNat / 64 + 1) 0).getLsbD (i.toNat % 64 + k - 64)))) := by
      rw [← hfirst, ← hnext, ← getLsbD_or, clibBitmapGetMultiple]
      split
      · rfl
      · exact congrArg (fun x : Word => x.getLsbD k) BitVec.or_zero.symm
    rw [hor, clibBitmapGet_eq]
    obtain ⟨hsame, hover⟩ := add_div_mod i.toNat k hk
    by_cases h : i.toNat % 64 + k < 64
    · rw [(hsame h).1, (hsame h).2, decide_eq_false (Nat.not_le.mpr h), Bool.false_and, Bool.or_false]
    · have hge := Nat.le_of_not_lt h
      rw [(hover hge).1, (hover hge).2, getLsbD_of_ge _ _ hge, decide_eq_true hge, Bool.and_false, Bool.false_or,
        Bool.true_and]
  · rw [getLsbD_of_ge _ _ (Nat.le_of_not_lt hk), decide_eq_false (by omega), Bool.false_and]

theorem getLsbD_insert_first (t value : Word) {m : Word} (hm : ∀ k < 64, m.getLsbD k = decide (k < n)) (s : Nat)
    (hk : k < 64) : (t &&& ~~~(m <<< s) ||| (value &&& m) <<< s).getLsbD k =
      if s ≤ k ∧ k < s + n then value.getLsbD (k - s) else t.getLsbD k := by
  have hm' := hm (k - s) (by omega)
  rw [getLsbD_or, getLsbD_and_not hk, getLsbD_shiftLeft, getLsbD_shiftLeft, getLsbD_and, hm',
    decide_eq_true hk, Bool.true_and]
  by_cases hs : s ≤ k
  · rw [decide_eq_false (Nat.not_lt.mpr hs)]
    by_cases hn : k < s + n
    · rw [if_pos ⟨hs, hn⟩, decide_eq_true (by omega : k - s < n)]
      simp
    · rw [if_neg fun h => hn h.2, decide_eq_false (by omega : ¬ k - s < n)]
      simp
  · rw [if_neg fun h => hs h.1, decide_eq_true (Nat.lt_of_not_le hs)]
    simp

theorem getLsbD_insert_next (t value : Word) {m m' : Word} (hn : n ≤ 64)
    (hm : ∀ k < 64, m.getLsbD k = decide (k < n)) (hm' : ∀ k < 64, m'.getLsbD k = decide (k < n - s)) (hk : k < 64) :
    (t &&& ~~~m' ||| (value &&& m) >>> s).getLsbD k = if k < n - s then value.getLsbD (s + k) else t.getLsbD k := by
  rw [getLsbD_or, getLsbD_and_not hk, getLsbD_ushiftRight, getLsbD_and, hm' k hk]
  by_cases hin : k < n - s
  · rw [if_pos hin, hm _ (by omega), decide_eq_true hin, decide_eq_true (by omega : s + k < n)]
    simp
  · have hout : m.getLsbD (s + k) = false := by
      by_cases hlt : s + k < 64
      · rw [hm _ hlt]
        exact decide_eq_false (by omega)
      · exact getLsbD_of_ge _ _ (Nat.le_of_not_lt hlt)
    rw [if_neg hin, hout, decide_eq_false hin]
    simp

theorem clibBitmapSetMultiple_spec (bitmap : Bitmap) {i nBits : Word} (value : Word) (hn : nBits.toNat ≤ 64)
    (hi : i.toNat + nBits.toNat < 2 ^ 64) : ∃ bitmap', clibBitmapSetMultiple bitmap i value nBits = some bitmap' ∧
      SetsRange bitmap bitmap' i.toNat nBits.toNat value.getLsbD := by
  have hend : (i + nBits).toNat = i.toNat + nBits.toNat := by rw [toNat_add, Nat.mod_eq_of_lt hi]
  have hlen := length_vecValidate bitmap ((i.toNat + nBits.toNat) / 64)
  have hget := getD_vecValidate bitmap ((i.toNat + nBits.toNat) / 64)
  rw [clibBitmapSetMultiple, hend]
  generalize vecValidate bitmap ((i.toNat + nBits.toNat) / 64) = b at hlen hget
  have hm (k : Nat) (hk : k < 64) := getLsbD_mask nBits.toNat hk
  generalize (if nBits.toNat < 64 then (1#64 <<< nBits.toNat) - 1 else -1 : Word) = m at hm
  have hmod : i.toNat % 64 < 64 := Nat.mod_lt _ (by decide)
  have hfirst : i.toNat / 64 < b.length := by omega
  rw [if_pos hfirst]
  -- the word of the first bit, with or without the one after it
  have hword (j : Nat) (hw : j / 64 = i.toNat / 64) :
      (b.getD (i.toNat / 64) 0 &&& ~~~(m <<< (i.toNat % 64)) ||| (value &&& m) <<< (i.toNat % 64)).getLsbD (j % 64) =
        if i.toNat ≤ j ∧ j < i.toNat + nBits.toNat then value.getLsbD (j - i.toNat) else clibBitmapGet bitmap j := by
    rw [getLsbD_insert_first _ _ hm _ (Nat.mod_lt j (by decide)), clibBitmapGet_eq, hget, hw]
    have hrange : (i.toNat % 64 ≤ j % 64 ∧ j % 64 < i.toNat % 64 + nBits.toNat) ↔
        i.toNat ≤ j ∧ j < i.toNat + nBits.toNat := by omega
    refine if_congr hrange ?_ rfl
    congr 1
    omega
  by_cases hover : i.toNat % 64 + nBits.toNat > 64
  · have hnext : i.toNat / 64 + 1 < b.length := by omega
    refine ⟨_, if_pos ⟨hover, hnext⟩, ?_⟩
    intro j
    have hk : j % 64 < 64 := Nat.mod_lt _ (by decide)
    rw [clibBitmapGet_eq, getD_set (by rwa [length_set]), getD_set hfirst, getD_set hfirst]
    by_cases hw : j / 64 = i.toNat / 64 + 1
    · have hlow : nBits.toNat - (64 - i.toNat % 64) < 64 := by omega
      rw [if_pos hw, if_neg (Nat.succ_ne_self _), getLsbD_insert_next _ _ hn hm (fun k _ => getLsbD_lowMask hlow k) hk,
        hget, clibBitmapGet_eq, hw]
      have hrange : j % 64 < nBits.toNat - (64 - i.toNat % 64) ↔ i.toNat ≤ j ∧ j < i.toNat + nBits.toNat := by omega
      refine if_congr hrange ?_ rfl
      congr 1
      omega
    · rw [if_neg hw]
      split
      · next hw' => exact hword j hw'
      · next hw' =>
        rw [if_neg (by omega), hget, clibBitmapGet_eq]
  · refine ⟨_, if_neg (fun h => hover h.1), ?_⟩
    intro j
    rw [clibBitmapGet_eq, getD_set hfirst]
    split
    · next hw => exact hword j hw
    · next hw =>
      rw [if_neg (by omega), hget, clibBitmapGet_eq]

theorem clibBitmapSetMultiple_wrap {i nBits : Word} (value : Word) (hn : nBits.toNat ≤ 64)
    (hi : 2 ^ 64 ≤ i.toNat + nBits.toNat) : clibBitmapSetMultiple [] i value nBits = none := by
  have hlt := i.isLt
  have hend : (i + nBits).toNat = i.toNat + nBits.toNat - 2 ^ 64 := by
    rw [toNat_add, Nat.mod_eq_sub_mod hi, Nat.mod_eq_of_lt (by omega)]
  rw [clibBitmapSetMultiple, hend]
  refine if_neg ?_
  rw [length_vecValidate, length_nil]
  omega

theorem length_setMask (value mask : Word) (b : Bitmap) (a0 : Nat) : (setMask value mask b a0).length = b.length :=
  length_set

theorem length_fillWords (x : Word) (b : Bitmap) (a0 n : Nat) : (fillWords x b a0 n).length = b.length := by
  induction n generalizing b a0 with
  | zero => rfl
  | succ n ih => exact (ih _ _).trans length_set

theorem getD_fillWords (x : Word) {b : Bitmap} {a0 n : Nat} (h : a0 + n ≤ b.length) (w : Nat) :
    (fillWords x b a0 n).getD w 0 = if a0 ≤ w ∧ w < a0 + n then x else b.getD w 0 := by
  induction n generalizing b a0 with
  | zero =>
    rw [if_neg (by omega)]
    rfl
  | succ n ih =>
    rw [fillWords, ih (by rw [length_set]; omega), getD_set (by omega)]
    by_cases hw : w = a0
    · rw [if_pos hw, if_neg (by omega), if_pos (by omega)]
    · rw [if_neg hw]
      exact if_congr (by omega) rfl rfl

theorem getLsbD_setMask (value mask t : Word) (hk : k < 64) :
    (if value ≠ 0 then t ||| mask else t &&& ~~~mask).getLsbD k =
      if mask.getLsbD k then decide (value ≠ 0) else t.getLsbD k := by
  split
  · next hv =>
    rw [getLsbD_or, decide_eq_true hv]
    cases mask.getLsbD k with
    | true => exact Bool.or_true _
    | false => exact Bool.or_false _
  · next hv =>
    rw [getLsbD_and_not hk, decide_eq_false hv]
    cases mask.getLsbD k with
    | true => exact Bool.and_false _
    | false => exact Bool.and_true _

theorem getLsbD_fill (value : Word) (hk : k < 64) :
    (if value ≠ 0 then -1 else 0 : Word).getLsbD k = decide (value ≠ 0) := by
  split
  · next hv =>
    rw [show (-1 : Word) = BitVec.allOnes 64 from rfl, getLsbD_allOnes, decide_eq_true hk, decide_eq_true hv]
  · next hv => rw [getLsbD_zero_word, decide_eq_false hv]

theorem pow2Mask_of_lt (undef : Nat → Word) (h : x < 64) : pow2Mask undef x = (1#64 <<< x) - 1 := by
  rw [pow2Mask, if_pos h]

/-- The first word, the words between, the last word and the others. -/
theorem clfibBitmapSetRegion_bits (undef : Nat → Word) (bitmap : Bitmap) (i value nBits : Word)
    (hfirst : i.toNat / 64 < (vecValidate bitmap ((i + nBits).toNat / 64)).length) :
    ∃ bitmap', clfibBitmapSetRegion undef bitmap i value nBits = some bitmap' ∧ ∀ j, clibBitmapGet bitmap' j =
      if j / 64 = i.toNat / 64 then
        if i.toNat % 64 ≤ j % 64 ∧ j % 64 < i.toNat % 64 + nBits.toNat then decide (value ≠ 0)
            else clibBitmapGet bitmap j
      else if i.toNat / 64 < j / 64 ∧ j / 64 < (i + nBits).toNat / 64 then decide (value ≠ 0)
      else if j / 64 = (i + nBits).toNat / 64 ∧ i.toNat / 64 < (i + nBits).toNat / 64 then
        if (pow2Mask undef (nBits.toNat - (64 - i.toNat % 64))).getLsbD (j % 64) then decide (value ≠ 0)
        else clibBitmapGet bitmap j
      else clibBitmapGet bitmap j := by
  have hlen := length_vecValidate bitmap ((i + nBits).toNat / 64)
  have hget := getD_vecValidate bitmap ((i + nBits).toNat / 64)
  have hmask : (if nBits.toNat < 64 then pow2Mask undef nBits.toNat else -1) =
      (if nBits.toNat < 64 then (1#64 <<< nBits.toNat) - 1 else -1 : Word) := by
    split
    · next h => exact pow2Mask_of_lt undef h
    · rfl
  rw [clfibBitmapSetRegion, if_pos hfirst]
  simp only [hmask]
  have hm (k : Nat) (hk : k < 64) := getLsbD_mask nBits.toNat hk
  generalize (if nBits.toNat < 64 then (1#64 <<< nBits.toNat) - 1 else -1 : Word) = m at hm
  generalize vecValidate bitmap ((i + nBits).toNat / 64) = b at hfirst hlen hget
  generalize (i + nBits).toNat / 64 = b0 at hlen
  have hfill : i.toNat / 64 + 1 + (b0 - (i.toNat / 64 + 1)) ≤ b.length := by omega
  -- the words before the last one
  have hbefore (j : Nat) : ((fillWords (if value ≠ 0 then -1 else 0)
      (setMask value (m <<< (i.toNat % 64)) b (i.toNat / 64))
      (i.toNat / 64 + 1) (b0 - (i.toNat / 64 + 1))).getD (j / 64) 0).getLsbD (j % 64) =
      if j / 64 = i.toNat / 64 then
        if i.toNat % 64 ≤ j % 64 ∧ j % 64 < i.toNat % 64 + nBits.toNat then decide (value ≠ 0)
            else clibBitmapGet bitmap j
      else if i.toNat / 64 < j / 64 ∧ j / 64 < b0 then decide (value ≠ 0) else clibBitmapGet bitmap j := by
    have hk : j % 64 < 64 := Nat.mod_lt _ (by decide)
    rw [getD_fillWords _ (by rw [length_setMask]; exact hfill)]
    by_cases hw : j / 64 = i.toNat / 64
    · rw [if_pos hw, if_neg (by omega), setMask, getD_set hfirst, if_pos hw, getLsbD_setMask _ _ _ hk,
        getLsbD_shiftLeft, hm _ (by omega), hget, clibBitmapGet_eq, hw]
      refine if_congr ?_ rfl rfl
      rw [decide_eq_true hk, Bool.true_and, Bool.and_eq_true, Bool.not_eq_true', decide_eq_false_iff_not,
          decide_eq_true_iff]
      omega
    · rw [if_neg hw]
      by_cases hin : i.toNat / 64 < j / 64 ∧ j / 64 < b0
      · rw [if_pos hin, if_pos (by omega), getLsbD_fill value hk]
      · rw [if_neg hin, if_neg (by omega), setMask, getD_set hfirst, if_neg hw, hget, clibBitmapGet_eq]
  by_cases hlast : i.toNat / 64 + 1 ≤ b0
  · refine ⟨_, if_pos hlast, ?_⟩
    intro j
    have hk : j % 64 < 64 := Nat.mod_lt _ (by decide)
    rw [clibBitmapGet_eq, setMask, getD_set (by rw [length_fillWords, length_setMask]; omega)]
    by_cases hw : j / 64 = b0
    · subst hw
      have hold := (hbefore j).trans ((if_neg (by omega)).trans (if_neg (by omega)))
      rw [if_pos rfl, getLsbD_setMask _ _ _ hk, hold]
      exact ((if_neg (by omega)).trans ((if_neg (by omega)).trans (if_pos ⟨rfl, hlast⟩))).symm
    · rw [if_neg hw, hbefore]
      split
      · rfl
      · rw [if_neg (fun h : j / 64 = b0 ∧ _ => hw h.1)]
  · refine ⟨_, if_neg hlast, ?_⟩
    intro j
    rw [clibBitmapGet_eq, hbefore, if_neg (fun h : j / 64 = b0 ∧ i.toNat / 64 < b0 => hlast h.2)]

theorem clfibBitmapSetRegion_spec (undef : Nat → Word) (bitmap : Bitmap) {i nBits : Word} (value : Word)
    (hn : 0 < nBits.toNat) (hi : i.toNat + nBits.toNat < 2 ^ 64)
    (hnext : (i.toNat + nBits.toNat) / 64 ≤ i.toNat / 64 + 1) :
    ∃ bitmap', clfibBitmapSetRegion undef bitmap i value nBits = some bitmap' ∧
      SetsRange bitmap bitmap' i.toNat nBits.toNat fun _ => decide (value ≠ 0) := by
  have hend : (i + nBits).toNat = i.toNat + nBits.toNat := by rw [toNat_add, Nat.mod_eq_of_lt hi]
  have hlen := length_vecValidate bitmap ((i + nBits).toNat / 64)
  obtain ⟨bitmap', he, hbits⟩ := clfibBitmapSetRegion_bits undef bitmap i value nBits (by omega)
  refine ⟨bitmap', he, ?_⟩
  intro j
  rw [hbits, hend]
  by_cases hw : j / 64 = i.toNat / 64
  · rw [if_pos hw]
    exact if_congr (by omega) rfl rfl
  · rw [if_neg hw, if_neg (by omega)]
    by_cases hlast : j / 64 = (i.toNat + nBits.toNat) / 64 ∧ i.toNat / 64 < (i.toNat + nBits.toNat) / 64
    · have hleft : nBits.toNat - (64 - i.toNat % 64) < 64 := by omega
      rw [if_pos hlast, pow2Mask_of_lt undef hleft, getLsbD_lowMask hleft]
      refine if_congr (decide_eq_true_iff.trans ?_) rfl rfl
      omega
    · rw [if_neg hlast, if_neg (by omega)]

/-- All bits clear, or all bits of the words up to the `n`th set: the opposite of the value. -/
def opposite (value : Word) (n : Nat) : Bitmap := if value ≠ 0 then [] else List.replicate (n + 1) (-1)

theorem clibBitmapGet_opposite (value : Word) (hj : j / 64 ≤ n) :
    clibBitmapGet (opposite value n) j = !decide (value ≠ 0) := by
  rw [clibBitmapGet_eq, opposite]
  split
  · next hv =>
    rw [getD_nil, getLsbD_zero_word, decide_eq_true hv]
    rfl
  · next hv =>
    have hk : j % 64 < 64 := Nat.mod_lt _ (by decide)
    rw [getD_replicate _ (Nat.lt_succ_of_le hj), show (-1 : Word) = BitVec.allOnes 64 from rfl,
      getLsbD_allOnes, decide_eq_true hk, decide_eq_false hv]
    rfl

theorem clfibBitmapSetRegion_long {i nBits : Word} (value : Word) (hi : i.toNat + nBits.toNat < 2 ^ 64)
    (hlong : i.toNat / 64 + 1 < (i.toNat + nBits.toNat) / 64) : ∃ undef bitmap, ¬ ∃ bitmap',
      clfibBitmapSetRegion undef bitmap i value nBits = some bitmap' ∧
        SetsRange bitmap bitmap' i.toNat nBits.toNat fun _ => decide (value ≠ 0) := by
  have hend : (i + nBits).toNat = i.toNat + nBits.toNat := by rw [toNat_add, Nat.mod_eq_of_lt hi]
  refine ⟨fun _ => 0, opposite value ((i.toNat + nBits.toNat) / 64), ?_⟩
  intro ⟨bitmap', he, hrange⟩
  have hlen := length_vecValidate (opposite value ((i.toNat + nBits.toNat) / 64)) ((i + nBits).toNat / 64)
  obtain ⟨b, he', hbits⟩ := clfibBitmapSetRegion_bits (fun _ => 0)
      (opposite value ((i.toNat + nBits.toNat) / 64)) i value
    nBits (by omega)
  obtain rfl := Option.some.inj (he.symm.trans he')
  -- the first bit after the region
  have hafter := (hbits (i.toNat + nBits.toNat)).symm.trans (hrange (i.toNat + nBits.toNat))
  have hk : (i.toNat + nBits.toNat) % 64 < 64 := Nat.mod_lt _ (by decide)
  have hover : ¬ nBits.toNat - (64 - i.toNat % 64) < 64 := by omega
  have hones : (pow2Mask (fun _ => 0) (nBits.toNat - (64 - i.toNat % 64))).getLsbD ((i.toNat + nBits.toNat) % 64) =
      true := by
    rw [pow2Mask, if_neg hover, show (0 : Word) - 1 = BitVec.allOnes 64 from rfl, getLsbD_allOnes]
    exact decide_eq_true hk
  rw [hend, if_neg (by omega), if_neg (by omega), if_pos ⟨rfl, by omega⟩, if_pos hones, if_neg (by omega),
    clibBitmapGet_opposite value (Nat.le_refl _)] at hafter
  exact Bool.not_ne_self _ hafter.symm

theorem clfibBitmapSetRegion_wrap {i nBits : Word} (value : Word) (hi : 2 ^ 64 ≤ i.toNat + nBits.toNat) :
    ∃ undef bitmap, ¬ ∃ bitmap', clfibBitmapSetRegion undef bitmap i value nBits = some bitmap' ∧
      SetsRange bitmap bitmap' i.toNat nBits.toNat fun _ => decide (value ≠ 0) := by
  have hilt := i.isLt
  have hnlt := nBits.isLt
  have hend : (i + nBits).toNat = i.toNat + nBits.toNat - 2 ^ 64 := by
    rw [toNat_add, Nat.mod_eq_sub_mod hi, Nat.mod_eq_of_lt (by omega)]
  by_cases hfar : (i + nBits).toNat / 64 < i.toNat / 64
  · refine ⟨fun _ => 0, [], ?_⟩
    intro ⟨bitmap', he, _⟩
    rw [clfibBitmapSetRegion, if_neg (by rw [length_vecValidate, length_nil]; omega)] at he
    cases he
  · refine ⟨fun _ => 0, opposite value (i.toNat / 64 + 1), ?_⟩
    intro ⟨bitmap', he, hrange⟩
    have hlen := length_vecValidate (opposite value (i.toNat / 64 + 1)) ((i + nBits).toNat / 64)
    obtain ⟨b, he', hbits⟩ := clfibBitmapSetRegion_bits (fun _ => 0) (opposite value (i.toNat / 64 + 1)) i value nBits
      (by omega)
    obtain rfl := Option.some.inj (he.symm.trans he')
    -- the first bit of the second word
    have hsecond := (hbits (64 * (i.toNat / 64 + 1))).symm.trans (hrange (64 * (i.toNat / 64 + 1)))
    rw [if_neg (by omega), if_neg (by omega), if_neg (by omega), if_pos (by omega),
      clibBitmapGet_opposite value (by omega)] at hsecond
    exact Bool.not_ne_self _ hsecond

/-- Reading and writing several bits is reading and writing each of them, but for indexes that wrap around and for
regions with a whole word between their first and their last. -/
theorem clib_bitmap_ranges (i value nBits : Word) :
    (nBits.toNat ≤ 64 → ∀ bitmap k, (clibBitmapGetMultiple bitmap i nBits).getLsbD k =
      (decide (k < nBits.toNat) && clibBitmapGet bitmap (i.toNat + k))) ∧
    (nBits.toNat ≤ 64 → ((∀ bitmap, ∃ bitmap', clibBitmapSetMultiple bitmap i value nBits = some bitmap' ∧
      SetsRange bitmap bitmap' i.toNat nBits.toNat value.getLsbD) ↔ i.toNat + nBits.toNat < 2 ^ 64)) ∧
    (0 < nBits.toNat → ((∀ undef bitmap, ∃ bitmap', clfibBitmapSetRegion undef bitmap i value nBits = some bitmap' ∧
      SetsRange bitmap bitmap' i.toNat nBits.toNat fun _ => decide (value ≠ 0)) ↔
        i.toNat + nBits.toNat < 2 ^ 64 ∧ (i.toNat + nBits.toNat) / 64 ≤ i.toNat / 64 + 1)) := by
  refine ⟨fun hn bitmap k => clibBitmapGetMultiple_bit bitmap i hn k, ?_, ?_⟩
  · intro hn
    constructor
    · intro hall
      by_contra hi
      obtain ⟨bitmap', he, _⟩ := hall []
      rw [clibBitmapSetMultiple_wrap value hn (Nat.le_of_not_lt hi)] at he
      cases he
    · intro hi bitmap
      exact clibBitmapSetMultiple_spec bitmap value hn hi
  · intro hn
    constructor
    · intro hall
      have hi : i.toNat + nBits.toNat < 2 ^ 64 := by
        by_contra hi
        obtain ⟨undef, bitmap, hno⟩ := clfibBitmapSetRegion_wrap value (Nat.le_of_not_lt hi)
        exact hno (hall undef bitmap)
      refine ⟨hi, ?_⟩
      by_contra hlong
      obtain ⟨undef, bitmap, hno⟩ := clfibBitmapSetRegion_long value hi (Nat.lt_of_not_le hlong)
      exact hno (hall undef bitmap)
    · intro ⟨hi, hnext⟩ undef bitmap
      exact clfibBitmapSetRegion_spec undef bitmap value hn hi hnext

theorem clib_bitmap_ranges_of_seven :
    (∀ bitmap k, (clibBitmapGetMultiple bitmap 3 7).getLsbD k = (decide (k < 7) && clibBitmapGet bitmap (3 + k))) ∧
    (∀ bitmap, ∃ bitmap', clibBitmapSetMultiple bitmap 3 6 7 = some bitmap' ∧
      SetsRange bitmap bitmap' 3 7 (6 : Word).getLsbD) ∧
    (∀ undef bitmap, ∃ bitmap', clfibBitmapSetRegion undef bitmap 3 6 7 = some bitmap' ∧
      SetsRange bitmap bitmap' 3 7 fun _ => decide ((6 : Word) ≠ 0)) :=
  have h := clib_bitmap_ranges 3 6 7
  ⟨h.1 (by decide), (h.2.1 (by decide)).mpr (by decide), (h.2.2 (by decide)).mpr (by decide)⟩

/-- Of 129 bits from the first on the last is in the third word; where the shift by 65 gives zero the mask is all of
it. -/
theorem clfib_bitmap_set_region_long : ¬ ∀ i value nBits : Word, 0 < nBits.toNat → ∀ undef bitmap, ∃ bitmap',
    clfibBitmapSetRegion undef bitmap i value nBits = some bitmap' ∧
      SetsRange bitmap bitmap' i.toNat nBits.toNat fun _ => decide (value ≠ 0) := by
  intro hall
  obtain ⟨bitmap', he, hrange⟩ := hall 0 1 129 (by decide) (fun _ => 0) []
  have hrun : clfibBitmapSetRegion (fun _ => 0) [] 0 1 129 = some [-1, -1, -1] := by decide
  obtain rfl := Option.some.inj (he.symm.trans hrun)
  exact absurd (hrange 129) (by decide)

end Vpp.Infra
