import Vpp.Infra.BitmapRange
import Vpp.Lib.BitFields

namespace Vpp.Infra
open Vpp.Lib List

section

/-- The lowest bit of a word and what is left of the word without it. -/
theorem firstSet_eq_twoPow {x : Word} (hx : x ≠ 0) :
    ∃ e < 64, x.getLsbD e = true ∧ firstSet x = BitVec.twoPow 64 e ∧ minLog2 (firstSet x) = e ∧
      (x ^^^ firstSet x).toNat + 2 ^ e = x.toNat ∧ ∀ k ≤ e, (x ^^^ firstSet x).getLsbD k = false := by
  obtain ⟨e, he, hbit, hbelow, hlog, hxor⟩ := exists_firstSet hx
  have hpow : firstSet x = BitVec.twoPow 64 e := by
    apply BitVec.eq_of_getLsbD_eq
    intro i hi
    have hboth := hxor i
    rw [BitVec.getLsbD_xor] at hboth
    rw [BitVec.getLsbD_twoPow]
    by_cases hie : i = e
    · rw [hie, hbit] at hboth
      simpa [hie, he, hbit] using hboth
    · have hne : (i != e) = true := bne_iff_ne.mpr hie
      rw [hne, Bool.and_true] at hboth
      have hclear : (firstSet x).getLsbD i = false := by
        revert hboth
        cases x.getLsbD i <;> simp
      rw [hclear, decide_eq_false (Ne.symm hie), Bool.and_false]
  have hdisj : (x ^^^ firstSet x) &&& firstSet x = 0#64 := by
    apply BitVec.eq_of_getLsbD_eq
    intro i hi
    rw [BitVec.getLsbD_and, hxor, hpow, BitVec.getLsbD_twoPow, BitVec.getLsbD_zero]
    by_cases hie : i = e
    · simp [hie]
    · simp [Ne.symm hie]
  have hsum : (x ^^^ firstSet x) + firstSet x = x := by
    rw [BitVec.add_eq_or_of_and_eq_zero _ _ hdisj]
    apply BitVec.eq_of_getLsbD_eq
    intro i hi
    rw [BitVec.getLsbD_or, hxor, hpow, BitVec.getLsbD_twoPow]
    by_cases hie : i = e
    · simp [hie, he, hbit]
    · simp [hie, Ne.symm hie]
  have hnat := BitVec.toNat_add_of_and_eq_zero hdisj
  rw [hsum, hpow, BitVec.toNat_twoPow_of_lt he, ← hpow] at hnat
  refine ⟨e, he, hbit, hpow, hlog, hnat.symm, ?_⟩
  intro k hk
  rw [hxor]
  rcases Nat.lt_or_eq_of_le hk with hlt | heq
  · rw [hbelow k hlt, Bool.false_and]
  · simp [heq]

theorem xor_firstSet_lt {x : Word} {b : Bool} (h : ¬ (b || firstSet x == x) = true) :
    (x ^^^ firstSet x).toNat < x.toNat := by
  have hx : x ≠ 0 := by
    intro hx
    rw [hx] at h
    exact h (Bool.or_true b)
  obtain ⟨e, -, -, -, -, hxor, -⟩ := firstSet_eq_twoPow hx
  have hpos : 0 < 2 ^ e := Nat.two_pow_pos e
  omega

def zvecDecodeLoop (coding zdata result : Word) (nBits : Nat) : Word × Nat :=
  let c := firstSet coding
  let implicitEnd := c == coding
  let explicitEnd := zdata &&& 1 != 0 && !implicitEnd
  let d := zdata >>> explicitEnd.toNat &&& (c - 1)
  if h : (explicitEnd || implicitEnd) = true then (result + d, nBits + (minLog2 c + explicitEnd.toNat))
  else zvecDecodeLoop (coding ^^^ c) (zdata >>> 1) (result + c) (nBits + 1)
termination_by coding.toNat
decreasing_by exact xor_firstSet_lt h

def zvecDecode (coding zdata : Word) : Word × Nat :=
  let (result, nBits) := zvecDecodeLoop coding zdata 0 0
  (result, if coding = 0 then 64 else nBits)

def zvecEncodeLoop (coding data : Word) (shift : Nat) : Word × Nat :=
  let c := firstSet coding
  let implicitEnd := c == coding
  let explicitEnd := data &&& (c - 1) == data
  if h : (explicitEnd || implicitEnd) = true then
    let t := explicitEnd && !implicitEnd
    ((data <<< t.toNat ||| BitVec.ofNat 64 t.toNat) <<< shift,
      (if c = 0 then 64 else minLog2 c) + shift + t.toNat)
  else zvecEncodeLoop (coding ^^^ c) (data - c) (shift + 1)
termination_by coding.toNat
decreasing_by exact xor_firstSet_lt h

def zvecEncode (coding data : Word) : Word × Nat := zvecEncodeLoop coding data 0

variable {coding data z r : Word}

def Agree (n : Nat) (z r : Word) : Prop := ∀ k < n, z.getLsbD k = r.getLsbD k

theorem and_one_eq (z : Word) : (z &&& 1 != 0) = z.getLsbD 0 := by
  have hmod : z.getLsbD 0 = decide (z.toNat % 2 = 1) := Nat.testBit_zero z.toNat
  rw [hmod, Bool.eq_iff_iff, bne_iff_ne, decide_eq_true_iff]
  exact and_one_ne_zero z

theorem toNat_mask (he : e < 64) : (BitVec.twoPow 64 e - 1).toNat = 2 ^ e - 1 := by
  have hpow : (BitVec.twoPow 64 e).toNat = 2 ^ e := BitVec.toNat_twoPow_of_lt he
  have hle : (1 : Word) ≤ BitVec.twoPow 64 e := by
    rw [BitVec.le_def, hpow]
    exact Nat.two_pow_pos e
  rw [BitVec.toNat_sub_of_le hle, hpow]
  rfl

theorem and_mask_beq (he : e < 64) (data : Word) :
    (data &&& (BitVec.twoPow 64 e - 1) == data) = decide (data.toNat < 2 ^ e) := by
  rw [Bool.eq_iff_iff, beq_iff_eq, decide_eq_true_iff, ← BitVec.toNat_inj, BitVec.toNat_and, toNat_mask he,
    Nat.and_two_pow_sub_one_eq_mod]
  exact Nat.mod_eq_iff_lt (Nat.ne_of_gt (Nat.two_pow_pos e))

theorem firstSet_zero : firstSet 0 = 0 := rfl

theorem ne_zero_of_firstSet_ne (h : firstSet coding ≠ coding) : coding ≠ 0 := by
  intro h0
  rw [h0] at h
  exact h firstSet_zero

theorem zvecEncodeLoop_last (h : firstSet coding = coding) (data : Word) (shift : Nat) :
    zvecEncodeLoop coding data shift = (data <<< shift, (if coding = 0 then 64 else minLog2 coding) + shift) := by
  rw [zvecEncodeLoop]
  simp [h]

theorem zvecEncodeLoop_more (h : firstSet coding ≠ coding) (data : Word) (shift : Nat) :
    zvecEncodeLoop coding data shift =
      if data.toNat < (firstSet coding).toNat then ((data <<< 1 ||| 1) <<< shift, minLog2 (firstSet coding) + shift + 1)
      else zvecEncodeLoop (coding ^^^ firstSet coding) (data - firstSet coding) (shift + 1) := by
  have himplicit : (firstSet coding == coding) = false := beq_false_of_ne h
  obtain ⟨e, he, -, hpow, -⟩ := firstSet_eq_twoPow (ne_zero_of_firstSet_ne h)
  have hnat : (firstSet coding).toNat = 2 ^ e := by rw [hpow, BitVec.toNat_twoPow_of_lt he]
  have hexplicit : (data &&& (firstSet coding - 1) == data) = decide (data.toNat < (firstSet coding).toNat) := by
    rw [hnat, hpow, and_mask_beq he]
  have hc : firstSet coding ≠ 0#64 := by
    intro h0
    rw [h0] at hnat
    exact absurd hnat.symm (Nat.ne_of_gt (Nat.two_pow_pos e))
  rw [zvecEncodeLoop]
  dsimp only
  rw [himplicit, hexplicit]
  by_cases hlt : data.toNat < (firstSet coding).toNat
  · simp [hlt, hc]
  · simp [hlt]

theorem zvecDecodeLoop_last (h : firstSet coding = coding) (z result : Word) (nBits : Nat) :
    zvecDecodeLoop coding z result nBits = (result + (z &&& (coding - 1)), nBits + minLog2 coding) := by
  rw [zvecDecodeLoop]
  simp [h]

theorem zvecDecodeLoop_more (h : firstSet coding ≠ coding) (z result : Word) (nBits : Nat) :
    zvecDecodeLoop coding z result nBits =
      if z.getLsbD 0 = true then (result + (z >>> 1 &&& (firstSet coding - 1)), nBits + (minLog2 (firstSet coding) + 1))
      else zvecDecodeLoop (coding ^^^ firstSet coding) (z >>> 1) (result + firstSet coding) (nBits + 1) := by
  have himplicit : (firstSet coding == coding) = false := beq_false_of_ne h
  rw [zvecDecodeLoop]
  rw [himplicit, and_one_eq]
  generalize z.getLsbD 0 = b
  cases b with
  | true => simp
  | false => simp

theorem getLsbD_mask_and (he : e < 64) (z : Word) (k : Nat) :
    (z &&& (BitVec.twoPow 64 e - 1)).getLsbD k = (decide (k < e) && z.getLsbD k) := by
  have hmask : (BitVec.twoPow 64 e - 1).getLsbD k = decide (k < e) := by
    rw [← BitVec.testBit_toNat, toNat_mask he, Nat.testBit_two_pow_sub_one]
  rw [BitVec.getLsbD_and, hmask, Bool.and_comm]

theorem and_mask_eq (he : e < 64) (hlt : data.toNat < 2 ^ e) (hz : Agree e z data) :
    z &&& (BitVec.twoPow 64 e - 1) = data := by
  apply BitVec.eq_of_getLsbD_eq
  intro k hk
  rw [getLsbD_mask_and he]
  by_cases hke : k < e
  · rw [decide_eq_true hke, Bool.true_and, hz k hke]
  · rw [decide_eq_false hke, Bool.false_and, ← BitVec.testBit_toNat]
    exact (Nat.testBit_lt_two_pow
        (Nat.lt_of_lt_of_le hlt (Nat.pow_le_pow_right (by decide) (Nat.le_of_not_lt hke)))).symm

theorem xor_firstSet_lt_of_ne (h : firstSet coding ≠ coding) :
    (coding ^^^ firstSet coding).toNat < coding.toNat := by
  apply @xor_firstSet_lt coding false
  rw [Bool.false_or, beq_iff_eq]
  exact h

theorem zvecEncodeLoop_shift (coding data : Word) (shift : Nat) :
    shift ≤ (zvecEncodeLoop coding data shift).2 ∧
      ∀ k < shift, (zvecEncodeLoop coding data shift).1.getLsbD k = false := by
  induction hn : coding.toNat using Nat.strong_induction_on generalizing coding data shift with
  | _ n ih =>
    have hshifted (x : Word) (k : Nat) (hk : k < shift) : (x <<< shift).getLsbD k = false := by simp [hk]
    by_cases h : firstSet coding = coding
    · rw [zvecEncodeLoop_last h]
      exact ⟨Nat.le_add_left _ _, hshifted data⟩
    · rw [zvecEncodeLoop_more h]
      split
      · exact ⟨by dsimp only; omega, hshifted _⟩
      · obtain ⟨hle, hlow⟩ := ih _ (hn ▸ xor_firstSet_lt_of_ne h) _ (data - firstSet coding) (shift + 1) rfl
        exact ⟨Nat.le_of_succ_le hle, fun k hk => hlow k (Nat.lt_succ_of_lt hk)⟩

/-- Decoding stops at the end of the code, whatever comes after it. -/
theorem zvecDecodeLoop_encode (hc : coding ≠ 0) (hdata : data.toNat < coding.toNat) (shift : Nat)
    (hlen : (zvecEncodeLoop coding data shift).2 ≤ 64)
    (hz : ∀ k, k + shift < (zvecEncodeLoop coding data shift).2 →
      z.getLsbD k = (zvecEncodeLoop coding data shift).1.getLsbD (k + shift)) (result : Word) (nBits : Nat) :
    zvecDecodeLoop coding z result nBits =
      (result + data, nBits + ((zvecEncodeLoop coding data shift).2 - shift)) := by
  induction hn : coding.toNat using Nat.strong_induction_on generalizing coding data shift z result nBits with
  | _ n ih =>
    obtain ⟨e, he, -, hpow, hlog, hsum, -⟩ := firstSet_eq_twoPow hc
    have hnat : (firstSet coding).toNat = 2 ^ e := by rw [hpow, BitVec.toNat_twoPow_of_lt he]
    by_cases h : firstSet coding = coding
    · rw [zvecEncodeLoop_last h, if_neg hc] at hz hlen ⊢
      rw [h] at hpow hlog hnat
      dsimp only at hz hlen
      have hagree : Agree e z data := by
        intro k hk
        rw [hz k (by omega), BitVec.getLsbD_shiftLeft, Nat.add_sub_cancel]
        simp [show k + shift < 64 by omega]
      rw [zvecDecodeLoop_last h, hlog, Nat.add_sub_cancel, hpow, and_mask_eq he (hnat ▸ hdata) hagree]
    · rw [zvecEncodeLoop_more h] at hz hlen ⊢
      rw [zvecDecodeLoop_more h]
      by_cases hlt : data.toNat < (firstSet coding).toNat
      · rw [if_pos hlt, hlog] at hz hlen ⊢
        dsimp only at hz hlen ⊢
        have hbit (k : Nat) (hk : k < e + 1) : z.getLsbD k = (data <<< 1 ||| 1).getLsbD k := by
          rw [hz k (by omega), BitVec.getLsbD_shiftLeft, Nat.add_sub_cancel]
          simp [show k + shift < 64 by omega]
        have hfirst : z.getLsbD 0 = true := by
          rw [hbit 0 (Nat.succ_pos e), BitVec.getLsbD_or]
          simp
        have hagree : Agree e (z >>> 1) data := by
          intro k hk
          rw [BitVec.getLsbD_ushiftRight, Nat.add_comm, hbit (k + 1) (by omega), BitVec.getLsbD_or,
            BitVec.getLsbD_shiftLeft, Nat.add_sub_cancel]
          simp [show k + 1 < 64 by omega]
        rw [if_pos hfirst, hpow, and_mask_eq he (hnat ▸ hlt) hagree]
        congr 2
        omega
      · rw [if_neg hlt] at hz hlen ⊢
        rw [hnat] at hlt
        have hsub : (data - firstSet coding).toNat = data.toNat - 2 ^ e := by
          rw [BitVec.toNat_sub_of_le (by rw [BitVec.le_def, hnat]; omega), hnat]
        have hless : (data - firstSet coding).toNat < (coding ^^^ firstSet coding).toNat := by omega
        have hne : coding ^^^ firstSet coding ≠ 0 := by
          intro h0
          rw [h0] at hless
          exact absurd hless (Nat.not_lt_zero _)
        obtain ⟨hle, hlow⟩ := zvecEncodeLoop_shift (coding ^^^ firstSet coding) (data - firstSet coding) (shift + 1)
        have ih := @ih _ (hn ▸ xor_firstSet_lt_of_ne h) _ (data - firstSet coding) (z >>> 1) hne hless (shift + 1) hlen
        generalize zvecEncodeLoop (coding ^^^ firstSet coding) (data - firstSet coding) (shift + 1) = code at *
        have hfirst : ¬ z.getLsbD 0 = true := by
          rw [hz 0 (by omega), hlow (0 + shift) (by omega)]
          exact Bool.false_ne_true
        have hrest (k : Nat) (hk : k + (shift + 1) < code.2) :
            (z >>> 1).getLsbD k = code.1.getLsbD (k + (shift + 1)) := by
          rw [BitVec.getLsbD_ushiftRight, hz (1 + k) (by omega)]
          congr 1
          omega
        rw [if_neg hfirst, ih hrest _ _ rfl, BitVec.add_assoc, add_sub_cancel]
        congr 1
        omega

theorem zvecEncode_zero (data : Word) : zvecEncode 0 data = (data, 64) := by
  rw [zvecEncode, zvecEncodeLoop_last firstSet_zero]
  simp

theorem zvecDecode_zero (z : Word) : zvecDecode 0 z = (z, 64) := by
  have hmask : z &&& (0 - 1) = z := BitVec.and_allOnes
  rw [zvecDecode, zvecDecodeLoop_last firstSet_zero, hmask]
  simp

theorem lt_of_le_pred (hc : coding ≠ 0) (h : data ≤ coding - 1) : data.toNat < coding.toNat := by
  have hpos : coding.toNat ≠ 0 := fun h0 => hc (BitVec.eq_of_toNat_eq h0)
  have hone : (1 : Word) ≤ coding := by
    rw [BitVec.le_def]
    exact Nat.pos_of_ne_zero hpos
  have hpred : (coding - 1).toNat = coding.toNat - 1 := BitVec.toNat_sub_of_le hone
  rw [BitVec.le_def, hpred] at h
  omega

theorem zvecDecode_encode (hdata : data ≤ coding - 1) (hlen : (zvecEncode coding data).2 ≤ 64)
    (hz : Agree (zvecEncode coding data).2 z (zvecEncode coding data).1) :
    zvecDecode coding z = (data, (zvecEncode coding data).2) := by
  by_cases hc : coding = 0
  · rw [hc, zvecEncode_zero] at hz ⊢
    rw [zvecDecode_zero, BitVec.eq_of_getLsbD_eq hz]
  · have hloop := zvecDecodeLoop_encode hc (lt_of_le_pred hc hdata) 0 hlen hz 0 0
    rw [Nat.zero_add, Nat.sub_zero, zero_add] at hloop
    rw [zvecDecode, hloop]
    exact congrArg (data, ·) (if_neg hc)

theorem xor_firstSet_ne_zero (h : firstSet coding ≠ coding) : coding ^^^ firstSet coding ≠ 0 :=
  fun h0 => h (BitVec.xor_eq_zero_iff.mp h0).symm

theorem minLog2_firstSet_lt (h : firstSet coding ≠ coding) :
    minLog2 (firstSet coding) < minLog2 (firstSet (coding ^^^ firstSet coding)) := by
  obtain ⟨e, -, -, -, hlog, -, hlow⟩ := firstSet_eq_twoPow (ne_zero_of_firstSet_ne h)
  obtain ⟨e', -, hbit', -, hlog', -⟩ := firstSet_eq_twoPow (xor_firstSet_ne_zero h)
  rw [hlog, hlog']
  apply Nat.lt_of_not_le
  intro hle
  rw [hlow e' hle] at hbit'
  exact Bool.false_ne_true hbit'

theorem zvecDecodeLoop_zero_more (h : firstSet coding ≠ coding) (result : Word) (nBits : Nat) :
    zvecDecodeLoop coding 0 result nBits =
      zvecDecodeLoop (coding ^^^ firstSet coding) 0 (result + firstSet coding) (nBits + 1) := by
  rw [zvecDecodeLoop_more h, if_neg (by simp)]
  rfl

theorem minLog2_le_decode_zero (hc : coding ≠ 0) (result : Word) (nBits : Nat) :
    nBits + minLog2 (firstSet coding) ≤ (zvecDecodeLoop coding 0 result nBits).2 := by
  induction hn : coding.toNat using Nat.strong_induction_on generalizing coding result nBits with
  | _ n ih =>
    by_cases h : firstSet coding = coding
    · rw [zvecDecodeLoop_last h, h]
    · have ih := ih _ (hn ▸ xor_firstSet_lt_of_ne h) (xor_firstSet_ne_zero h) (result + firstSet coding) (nBits + 1) rfl
      have hlt := minLog2_firstSet_lt h
      rw [zvecDecodeLoop_zero_more h]
      omega

theorem encode_le_decode_zero (hc : coding ≠ 0) (data : Word) (shift : Nat) (result : Word) (nBits : Nat) :
    nBits + (zvecEncodeLoop coding data shift).2 ≤ (zvecDecodeLoop coding 0 result nBits).2 + shift := by
  induction hn : coding.toNat using Nat.strong_induction_on generalizing coding data shift result nBits with
  | _ n ih =>
    by_cases h : firstSet coding = coding
    · rw [zvecDecodeLoop_last h, zvecEncodeLoop_last h, if_neg hc]
      dsimp only
      omega
    · have hne := xor_firstSet_ne_zero h
      rw [zvecDecodeLoop_zero_more h, zvecEncodeLoop_more h]
      split
      · have hge := minLog2_le_decode_zero hne (result + firstSet coding) (nBits + 1)
        have hlt := minLog2_firstSet_lt h
        dsimp only
        omega
      · have ih := ih _ (hn ▸ xor_firstSet_lt_of_ne h) hne (data - firstSet coding) (shift + 1)
          (result + firstSet coding) (nBits + 1) rfl
        omega

theorem encode_last_eq_decode_zero (hc : coding ≠ 0) (hdata : data.toNat + 1 = coding.toNat) (shift : Nat)
    (result : Word) (nBits : Nat) :
    nBits + (zvecEncodeLoop coding data shift).2 = (zvecDecodeLoop coding 0 result nBits).2 + shift := by
  induction hn : coding.toNat using Nat.strong_induction_on generalizing coding data shift result nBits with
  | _ n ih =>
    by_cases h : firstSet coding = coding
    · rw [zvecDecodeLoop_last h, zvecEncodeLoop_last h, if_neg hc]
      dsimp only
      omega
    · have hne := xor_firstSet_ne_zero h
      have hpos : 0 < (coding ^^^ firstSet coding).toNat :=
        Nat.pos_of_ne_zero fun h0 => hne (BitVec.eq_of_toNat_eq h0)
      obtain ⟨e, he, -, hpow, -, hsum, -⟩ := firstSet_eq_twoPow hc
      have hnat : (firstSet coding).toNat = 2 ^ e := by rw [hpow, BitVec.toNat_twoPow_of_lt he]
      have hsub : (data - firstSet coding).toNat = data.toNat - 2 ^ e := by
        rw [BitVec.toNat_sub_of_le (by rw [BitVec.le_def, hnat]; omega), hnat]
      have ih := ih _ (hn ▸ xor_firstSet_lt_of_ne h) hne (by omega : (data - firstSet coding).toNat + 1 = _) (shift + 1)
        (result + firstSet coding) (nBits + 1) rfl
      rw [zvecDecodeLoop_zero_more h, zvecEncodeLoop_more h, if_neg (by omega)]
      omega

def codingMaxNBits (coding : Word) : Nat := (zvecDecode coding 0).2

theorem length_zvecEncode_le (coding data : Word) : (zvecEncode coding data).2 ≤ codingMaxNBits coding := by
  by_cases hc : coding = 0
  · rw [hc, zvecEncode_zero, codingMaxNBits, zvecDecode_zero]
  · have hle := encode_le_decode_zero hc data 0 0 0
    have hmax : codingMaxNBits coding = (zvecDecodeLoop coding 0 0 0).2 := if_neg hc
    rw [hmax, zvecEncode]
    omega

theorem length_zvecEncode_last (coding : Word) : (zvecEncode coding (coding - 1)).2 = codingMaxNBits coding := by
  by_cases hc : coding = 0
  · rw [hc, zvecEncode_zero, codingMaxNBits, zvecDecode_zero]
  · have hpos : coding.toNat ≠ 0 := fun h0 => hc (BitVec.eq_of_toNat_eq h0)
    have hpred : (coding - 1).toNat = coding.toNat - 1 :=
      BitVec.toNat_sub_of_le (by rw [BitVec.le_def]; exact Nat.pos_of_ne_zero hpos)
    have heq := encode_last_eq_decode_zero hc (by omega : (coding - 1).toNat + 1 = _) 0 0 0
    have hmax : codingMaxNBits coding = (zvecDecodeLoop coding 0 0 0).2 := if_neg hc
    rw [hmax, zvecEncode]
    omega

end

def zvecSignedToUnsigned (s : Word) : Word :=
  let a := s.slt 0
  let s := 2 * s + BitVec.ofNat 64 a.toNat
  if a then -s else s

def zvecUnsignedToSigned (u : Word) : Word :=
  let a := u &&& 1
  let u := u >>> 1
  if a ≠ 0 then -u else u

def getData (isSigned : Bool) (data : BitVec w) : Word :=
  if isSigned then zvecSignedToUnsigned (data.signExtend 64) else data.setWidth 64

def putData (isSigned : Bool) (x : Word) : BitVec w :=
  if isSigned then (zvecUnsignedToSigned x).setWidth w else x.setWidth w

def zvecEncodeInline (coding : Word) (isSigned : Bool) : (zvec : Bitmap) → (i : Word) → List (BitVec w) →
    Option (Bitmap × Word)
  | zvec, i, [] => some (zvec, i)
  | zvec, i, data :: rest => do
    let d0 := getData isSigned data
    let (z0, l0) := zvecEncode coding d0
    let zvec ← clibBitmapSetMultiple zvec i z0 (BitVec.ofNat 64 l0)
    zvecEncodeInline coding isSigned zvec (i + BitVec.ofNat 64 l0) rest

def zvecDecodeInlineLoop (zvec : Bitmap) (coding : Word) (isSigned : Bool) (nMax : Nat) :
    (i : Word) → (nData : Nat) → List (BitVec w) × Word
  | i, 0 => ([], i)
  | i, nData + 1 =>
    let z0 := clibBitmapGetMultiple zvec i (BitVec.ofNat 64 nMax)
    let (d0, l0) := zvecDecode coding z0
    let (data, i) := zvecDecodeInlineLoop zvec coding isSigned nMax (i + BitVec.ofNat 64 l0) nData
    (putData isSigned d0 :: data, i)

def zvecDecodeInline (zvec : Bitmap) (i coding : Word) (isSigned : Bool) (nData : Nat) : List (BitVec w) × Word :=
  zvecDecodeInlineLoop zvec coding isSigned (codingMaxNBits coding) i nData

variable {coding i : Word} {zvec zvec' : Bitmap} {isSigned : Bool} {words : List Word}

theorem zvecSignedToUnsigned_eq (s : Word) : zvecSignedToUnsigned s = zigzag s := by
  rw [zvecSignedToUnsigned, zigzag]
  cases s.slt 0 with
  | true => rfl
  | false => simp

theorem zvecUnsignedToSigned_eq (u : Word) : zvecUnsignedToSigned u = negateOdd u := by
  have hhalf : u >>> 1 = u / 2 := by
    apply BitVec.eq_of_toNat_eq
    rw [BitVec.toNat_ushiftRight, BitVec.toNat_udiv, Nat.shiftRight_one]
    rfl
  rw [zvecUnsignedToSigned, negateOdd, hhalf]

/-- Data comes back from its word where it is not a negative value. -/
theorem putData_getData_iff (hw : w ≤ 64) (data : BitVec w) :
    putData isSigned (getData isSigned data) = data ↔ (isSigned = true → 0 ≤ data.toInt) := by
  cases isSigned with
  | false =>
    apply iff_of_true
    · exact (BitVec.setWidth_setWidth_of_le data hw).trans (BitVec.setWidth_eq data)
    · intro h
      cases h
  | true =>
    have hextend : (data.signExtend 64).setWidth w = data := by
      apply BitVec.eq_of_getLsbD_eq
      intro k hk
      rw [BitVec.getLsbD_setWidth, BitVec.getLsbD_signExtend, if_pos hk, decide_eq_true hk,
        decide_eq_true (Nat.lt_of_lt_of_le hk hw), Bool.true_and, Bool.true_and]
    have hslt : (data.signExtend 64).slt 0 = true ↔ data.toInt < 0 := by
      rw [slt_zero_iff, BitVec.toInt_signExtend_of_le hw]
    have hback : putData true (getData true data) = (negateOdd (zigzag (data.signExtend 64))).setWidth w := by
      rw [getData, putData, if_pos rfl, if_pos rfl, zvecSignedToUnsigned_eq, zvecUnsignedToSigned_eq]
    rw [hback, negateOdd_zigzag]
    by_cases hneg : (data.signExtend 64).slt 0 = true
    · have hlt := hslt.mp hneg
      rw [if_pos hneg, BitVec.setWidth_add _ _ hw, hextend]
      apply iff_of_false
      · intro h
        have hone := congrArg BitVec.toNat (BitVec.add_right_eq_self.mp h)
        rw [BitVec.toNat_setWidth] at hone
        cases w with
        | zero =>
          rw [BitVec.eq_nil data] at hlt
          exact absurd hlt (by decide)
        | succ w =>
          have hbig : 1 < 2 ^ (w + 1) := Nat.one_lt_two_pow (Nat.succ_ne_zero w)
          exact Nat.one_ne_zero ((Nat.mod_eq_of_lt hbig).symm.trans hone)
      · intro h
        exact Int.not_le.mpr hlt (h rfl)
    · rw [if_neg hneg, hextend]
      exact iff_of_true rfl fun _ => Int.not_lt.mp fun hlt => hneg (hslt.mpr hlt)

def totalBits (coding : Word) (words : List Word) : Nat := (words.map fun d => (zvecEncode coding d).2).sum

/-- The codes of the words stand in the bitmap one after another from `i` on. -/
def Laid (coding : Word) (zvec : Bitmap) : Nat → List Word → Prop
  | _, [] => True
  | i, d :: words =>
    (∀ k < (zvecEncode coding d).2, clibBitmapGet zvec (i + k) = (zvecEncode coding d).1.getLsbD k) ∧
      Laid coding zvec (i + (zvecEncode coding d).2) words

theorem toNat_ofNat_bits (hl : l ≤ 64) : (BitVec.ofNat 64 l).toNat = l := by
  rw [BitVec.toNat_ofNat]
  exact Nat.mod_eq_of_lt (by omega)

theorem toNat_add_bits (hl : l ≤ 64) (hi : i.toNat + l < 2 ^ 64) : (i + BitVec.ofNat 64 l).toNat = i.toNat + l := by
  rw [BitVec.toNat_add, toNat_ofNat_bits hl]
  exact Nat.mod_eq_of_lt hi

/-- Encoding lays the codes and leaves what is before them. -/
theorem zvecEncodeInline_spec (data : List (BitVec w))
    (hlen : ∀ d ∈ data, (zvecEncode coding (getData isSigned d)).2 ≤ 64)
    (hi : i.toNat + totalBits coding (data.map (getData isSigned)) < 2 ^ 64) :
    ∃ zvec' i', zvecEncodeInline coding isSigned zvec i data = some (zvec', i') ∧
      i'.toNat = i.toNat + totalBits coding (data.map (getData isSigned)) ∧
      Laid coding zvec' i.toNat (data.map (getData isSigned)) ∧
      ∀ j < i.toNat, clibBitmapGet zvec' j = clibBitmapGet zvec j := by
  induction data generalizing zvec i with
  | nil => exact ⟨zvec, i, rfl, rfl, trivial, fun _ _ => rfl⟩
  | cons d data ih =>
    obtain ⟨hfirst, hrest⟩ := forall_mem_cons.mp hlen
    have htotal : totalBits coding ((d :: data).map (getData isSigned)) =
        (zvecEncode coding (getData isSigned d)).2 + totalBits coding (data.map (getData isSigned)) := by
      rw [totalBits, map_cons, map_cons, sum_cons]
      rfl
    rw [htotal] at hi ⊢
    simp only [map_cons, Laid, zvecEncodeInline]
    generalize zvecEncode coding (getData isSigned d) = code at *
    have hbits := toNat_ofNat_bits hfirst
    have hnext := toNat_add_bits hfirst (by omega : i.toNat + code.2 < 2 ^ 64)
    obtain ⟨zvec₁, hset, hrange⟩ := clibBitmapSetMultiple_spec zvec code.1 (hbits.trans_le hfirst)
      (by omega : i.toNat + (BitVec.ofNat 64 code.2).toNat < 2 ^ 64)
    obtain ⟨zvec', i', hrun, hend, hlaid, hsame⟩ := @ih (i + BitVec.ofNat 64 code.2) zvec₁ hrest (by omega)
    rw [hnext] at hlaid hsame hend
    rw [hbits] at hrange
    refine ⟨zvec', i', ?_, by omega, ⟨?_, hlaid⟩, ?_⟩
    · simp only [hset, Option.bind_eq_bind, Option.bind_some, hrun]
    · intro k hk
      rw [hsame _ (by omega), hrange, if_pos (by omega), Nat.add_sub_cancel_left]
    · intro j hj
      rw [hsame j (by omega), hrange, if_neg (by omega)]

/-- Codes that lie one after another are decoded one after another. -/
theorem zvecDecodeInline_spec (hmax : codingMaxNBits coding ≤ 64) (hwords : ∀ d ∈ words, d ≤ coding - 1)
    (h : Laid coding zvec i.toNat words) (hi : i.toNat + totalBits coding words < 2 ^ 64) :
    ∃ i', zvecDecodeInline zvec i coding isSigned words.length = (words.map (putData isSigned : Word → BitVec w), i') ∧
      i'.toNat = i.toNat + totalBits coding words := by
  rw [zvecDecodeInline]
  induction words generalizing i with
  | nil => exact ⟨i, rfl, rfl⟩
  | cons d words ih =>
    obtain ⟨hfirst, hrest⟩ := forall_mem_cons.mp hwords
    obtain ⟨hcode, hlaid⟩ := h
    have htotal : totalBits coding (d :: words) = (zvecEncode coding d).2 + totalBits coding words := sum_cons
    rw [htotal] at hi ⊢
    have hle := length_zvecEncode_le coding d
    have hbits := toNat_ofNat_bits hmax
    have hagree : Agree (zvecEncode coding d).2
        (clibBitmapGetMultiple zvec i (BitVec.ofNat 64 (codingMaxNBits coding))) (zvecEncode coding d).1 := by
      intro k hk
      rw [clibBitmapGetMultiple_bit zvec i (hbits.trans_le hmax), hbits, decide_eq_true (by omega), Bool.true_and,
        hcode k hk]
    have hdecode := zvecDecode_encode hfirst (hle.trans hmax) hagree
    have hnext := toNat_add_bits (hle.trans hmax) (by omega : i.toNat + (zvecEncode coding d).2 < 2 ^ 64)
    rw [← hnext] at hlaid
    obtain ⟨i', hrun, hend⟩ := ih hrest hlaid (by omega)
    refine ⟨i', ?_, by omega⟩
    rw [length_cons, zvecDecodeInlineLoop, hdecode]
    dsimp only
    rw [hrun, map_cons]

/-- No code is the beginning of another one, and every code is decoded with exactly its length. -/
def PrefixFree (coding : Word) : Prop :=
  (∀ x y, x ≤ coding - 1 → y ≤ coding - 1 → x ≠ y →
    ¬ ((zvecEncode coding x).2 ≤ (zvecEncode coding y).2 ∧
      Agree (zvecEncode coding x).2 (zvecEncode coding y).1 (zvecEncode coding x).1)) ∧
  ∀ x ≤ coding - 1, ∀ z, Agree (zvecEncode coding x).2 z (zvecEncode coding x).1 →
    zvecDecode coding z = (x, (zvecEncode coding x).2)

theorem prefixFree (hlen : ∀ x ≤ coding - 1, (zvecEncode coding x).2 ≤ 64) : PrefixFree coding := by
  have hdecode : ∀ x ≤ coding - 1, ∀ z, Agree (zvecEncode coding x).2 z (zvecEncode coding x).1 →
      zvecDecode coding z = (x, (zvecEncode coding x).2) :=
    fun x hx _ hz => zvecDecode_encode hx (hlen x hx) hz
  refine ⟨?_, hdecode⟩
  intro x y hx hy hne h
  have hxy := hdecode x hx _ h.2
  rw [hdecode y hy _ fun _ _ => rfl] at hxy
  exact hne (Prod.mk.inj hxy).1.symm

theorem zvecDecodeInline_encode (hlen : ∀ x ≤ coding - 1, (zvecEncode coding x).2 ≤ 64) (data : List (BitVec w))
    (hdata : ∀ d ∈ data, getData isSigned d ≤ coding - 1) (zvec : Bitmap)
    (hi : i.toNat + totalBits coding (data.map (getData isSigned)) < 2 ^ 64) :
    ∃ zvec' i', zvecEncodeInline coding isSigned zvec i data = some (zvec', i') ∧
      zvecDecodeInline zvec' i coding isSigned data.length =
        (data.map fun d => (putData isSigned (getData isSigned d) : BitVec w), i') := by
  have hmax : codingMaxNBits coding ≤ 64 := length_zvecEncode_last coding ▸ hlen _ (BitVec.le_refl _)
  have hwords : ∀ d ∈ data.map (getData isSigned), d ≤ coding - 1 := by
    intro d hd
    obtain ⟨x, hx, rfl⟩ := List.mem_map.mp hd
    exact hdata x hx
  obtain ⟨zvec', i', hencode, hend, hlaid, -⟩ :=
    @zvecEncodeInline_spec coding i zvec isSigned w data (fun d hd => hlen _ (hdata d hd)) hi
  obtain ⟨i'', hdecode, hend'⟩ := @zvecDecodeInline_spec coding i zvec' isSigned _ w hmax hwords hlaid hi
  have hsame : i'' = i' := BitVec.eq_of_toNat_eq (hend'.trans hend.symm)
  rw [length_map, hsame, List.map_map] at hdecode
  exact ⟨zvec', i', hencode, hdecode⟩

/-- Data is decoded as it was encoded exactly where none of it is a negative value of a signed type. -/
theorem zvec_roundtrip (hw : w ≤ 64) (hlen : ∀ x ≤ coding - 1, (zvecEncode coding x).2 ≤ 64) (data : List (BitVec w))
    (hdata : ∀ d ∈ data, getData isSigned d ≤ coding - 1) (zvec : Bitmap)
    (hi : i.toNat + totalBits coding (data.map (getData isSigned)) < 2 ^ 64) :
    (PrefixFree coding ∧ ∃ zvec' i', zvecEncodeInline coding isSigned zvec i data = some (zvec', i') ∧
      zvecDecodeInline zvec' i coding isSigned data.length = (data, i')) ↔
    ∀ d ∈ data, isSigned = true → 0 ≤ d.toInt := by
  obtain ⟨zvec', i', hencode, hdecode⟩ := zvecDecodeInline_encode hlen data hdata zvec hi
  have hback : (data.map fun d => (putData isSigned (getData isSigned d) : BitVec w)) = data ↔
      ∀ d ∈ data, isSigned = true → 0 ≤ d.toInt := by
    nth_rewrite 2 [← List.map_id data]
    rw [map_inj_left]
    exact forall₂_congr fun d _ => putData_getData_iff hw d
  apply Iff.intro
  · intro h
    obtain ⟨-, zvec₁, i₁, hencode₁, hdecode₁⟩ := h
    rw [hencode] at hencode₁
    obtain ⟨rfl, rfl⟩ := Prod.mk.inj (Option.some.inj hencode₁)
    exact hback.mp (Prod.mk.inj (hdecode.symm.trans hdecode₁)).1
  · intro h
    exact ⟨prefixFree hlen, zvec', i', hencode, hdecode.trans (by rw [hback.mpr h])⟩

theorem zvecEncode_two (x : Word) : zvecEncode 2 x = (x <<< 0, 1) := zvecEncodeLoop_last rfl x 0

theorem length_zvecEncode_two (x : Word) : (zvecEncode 2 x).2 ≤ 64 := by
  rw [zvecEncode_two]
  exact Nat.le_of_ble_eq_true rfl

theorem totalBits_two (words : List Word) : totalBits 2 words = words.length := by
  induction words with
  | nil => rfl
  | cons d words ih =>
    rw [totalBits] at ih ⊢
    rw [map_cons, sum_cons, ih, zvecEncode_two, length_cons, Nat.add_comm]

theorem zvec_roundtrip_bits :
    PrefixFree 2 ∧ ∃ zvec' i', zvecEncodeInline 2 false [] 7 [(1 : BitVec 8), 0, 1] = some (zvec', i') ∧
      zvecDecodeInline zvec' 7 2 false 3 = ([(1 : BitVec 8), 0, 1], i') :=
  (zvec_roundtrip (by decide) (fun x _ => length_zvecEncode_two x) [1, 0, 1] (by decide) []
    (by rw [totalBits_two]; decide)).mpr (fun _ _ h => absurd h Bool.false_ne_true)

/-- Minus one is encoded as one, and comes back as zero. -/
theorem zvec_roundtrip_fails :
    ∃ zvec' i', zvecEncodeInline 2 true [] 0 [(-1 : BitVec 8)] = some (zvec', i') ∧
      zvecDecodeInline zvec' 0 2 true 1 = ([(0 : BitVec 8)], i') :=
  zvecDecodeInline_encode (fun x _ => length_zvecEncode_two x) [-1] (by decide) [] (by rw [totalBits_two]; decide)

end Vpp.Infra
